import BlockCompiler.Proofs.Assignments
import BlockCompiler.Proofs.Contents
import BlockCompiler.Proofs.Verification

/-!
# One slot for each local variable

A body in a module, be it whole or what is left of a refused one, has one slot for each name that is
assigned in it so far, parameters included. The slots stand in front of everything else in the entry
block, the latest one first, and no other block has any. Every assignment of a name stores in its
slot, in whatever block it stands, and every use of the name reads that slot
(`Context.one_slot_per_local`).
-/

namespace BlockCompiler

namespace Lowering

/-- A body leaves at least its entry. -/
theorem blocks_body_ne_nil (head : Prototype) (ss : List Stmt) (outer : Outer) (fr : Frame) :
    (body head ss outer fr).2.function.blocks ≠ [] := by
  have hcount := (body_extends_enter head ss outer fr).count_le
  rw [Frame.count_enter] at hcount
  exact List.length_pos_iff.mp (Nat.lt_of_lt_of_le (Nat.succ_pos _) hcount)

/-- The definition of a function that has no body yet. -/
theorem decl_of_blocks_eq_nil {c c₁ : Context} {head : Prototype} {ss : List Stmt} {id : Nat}
    {f : Function} (hok : declare head c = (.ok id, c₁)) (hf : c₁.functions[id]? = some f)
    (hblocks : f.blocks = []) :
    decl (.function head ss) c = ((body head ss c₁.outer (c₁.frame id f)).1,
      c₁.withFrame id (body head ss c₁.outer (c₁.frame id f)).2) := by
  rcases define_apply head ss c with ⟨e, he, -⟩ | ⟨id', c', f', hok', -, hf', -, heq⟩
  · exact absurd (he.symm.trans hok) (by simp)
  · obtain ⟨⟨⟩, rfl⟩ := Prod.mk.inj (hok'.symm.trans hok)
    obtain rfl := Option.some.inj (hf'.symm.trans hf)
    rw [decl, heq, if_pos hblocks]

end Lowering

namespace Context

variable {ds : List Decl} {f : Function}

/-! ## Where a body comes from -/

/-- A function that has a body is what the one definition that begins it leaves of it. -/
theorem exists_body_of_mem (hparsed : ∀ d ∈ ds, d.Parsed) (hf : f ∈ (after ds).functions)
    (hblocks : f.blocks ≠ []) :
    ∃ i head ss id c₁ g, BeginsBodyAt ds i f.signature.ident ∧ ds[i]? = some (.function head ss) ∧
      Lowering.declare head (after (ds.take i)) = (.ok id, c₁) ∧ c₁.functions[id]? = some g ∧
      g.Matches head ∧ g.blocks = [] ∧
      (Lowering.body head ss c₁.outer (c₁.frame id g)).2.function = f := by
  obtain ⟨i, hbegins⟩ := hasBody_after_iff.mp ⟨f, hf, rfl, hblocks⟩
  have ⟨_, hd, head, ss, id, c₁, g, heq, hident, hok, hg, hnil⟩ := hbegins
  subst heq
  have hmatches : g.Matches head := by
    obtain ⟨g', hg', hmatches⟩ := (Lowering.declares_of_eq hok).function
    rwa [Option.some.inj (hg'.symm.trans hg)] at hmatches
  refine ⟨i, head, ss, id, c₁, g, hbegins, hd, hok, hg, hmatches, hnil, ?_⟩
  have htake : ds.take (i + 1) = ds.take i ++ [.function head ss] := by
    rw [List.take_add_one, hd, Option.toList_some]
  -- What the definition leaves is not touched by the rest of the run.
  have hextends := after_append_extends (ds.take (i + 1)) (ds.drop (i + 1))
  rw [List.take_append_drop, htake, after_concat,
    Lowering.decl_of_blocks_eq_nil hok hg hnil] at hextends
  obtain ⟨f', hf', -, -, hsame⟩ := hextends.functions id _ (getElem?_withFrame hg)
  obtain rfl := hsame (Lowering.blocks_body_ne_nil head ss _ _)
  -- No other function has its name.
  have hregisters := registers_after hparsed
  have hnodup : ((after ds).functions.map (·.signature.ident)).Nodup :=
    hregisters.ident_eq ▸ hregisters.names
  refine List.inj_on_of_nodup_map hnodup (List.mem_of_getElem? hf') hf ?_
  rw [(Lowering.body_moves head ss c₁.outer (c₁.frame id g)).signature, ← hident]
  exact hmatches.ident

/-- Functions without body have no slots. -/
def Bare (c : Context) : Prop := ∀ f ∈ c.functions, f.blocks = [] → f.slots = []

theorem Bare.declare {c : Context} (h : c.Bare) (head : Prototype) : (c.declare head).Bare := by
  intro f hf
  rcases List.mem_append.mp hf with hf | hf
  · exact h f hf
  · rw [List.mem_singleton.mp hf]
    exact fun _ ↦ rfl

theorem bare_after (ds : List Decl) : (after ds).Bare := by
  refine after_induction nofun (fun c d ↦ ?_) ds
  refine Lowering.decl_moves (R := Lowering.Keeps Bare) (fun c head _ h ↦ h.declare head)
    (fun c id f head ss _ _ _ h g hg hblocks ↦ ?_) (fun _ _ _ _ h ↦ h) d c
  rcases List.mem_or_eq_of_mem_set hg with hg | rfl
  · exact h g hg hblocks
  · exact absurd hblocks (Lowering.blocks_body_ne_nil head ss _ _)

end Context

/-- The parameters are bound under the names of the head. -/
theorem Function.map_fst_bindings {f : Function} {head : Prototype}
    (h : f.params.map Param.ty = head.params.map Param.ty) :
    (f.bindings head).map Prod.fst = head.params.map Param.ident := by
  have hlength := congrArg List.length h
  rw [List.length_map, List.length_map] at hlength
  exact List.map_fst_zip (by simp [paramValues, hlength])

/-! ## Listings -/

/-- Nothing but a slot is set up by an `alloca`. -/
theorem Instr.opcode_listed_ne (f : Function) (start : Nat) (i : Instr) :
    (i.listed f start).opcode ≠ "alloca" := by
  cases i with
  | arith op => cases op <;> simp [listed, Arith.opcode]
  | load | store | compare | test | promote | call | ret | jump | branch | unreachable =>
    simp [listed]

/-- In a listing the slots stand in front of the other lines of the entry. -/
theorem Function.listing_slots {f : Function} {b : Nat} {block : Block}
    (h : f.blocks[b]? = some block) :
    ∃ others : List Line, f.listing.blocks[b]? = some ⟨block.name,
        (if b = 0 then f.slots.reverse.map Slot.listed else []) ++ others⟩ ∧
      ∀ line ∈ others, line.opcode ≠ "alloca" := by
  refine ⟨(f.code b).map (Instr.listed f (f.firstNumber b)), ?_, fun line hline ↦ ?_⟩
  · rw [listing_eq_contents h, contents]
    split <;> simp [Function.comp_def]
  · obtain ⟨i, -, rfl⟩ := List.mem_map.mp hline
    exact i.opcode_listed_ne f _

namespace Context

/-- In every module that declarations from a source text lead to, refused ones included, a function
with a body has the slots of the assignments that were lowered: these are the parameters and what
the text of the body assigns, all of it if the body was accepted, and else as far as lowering came.
There is one slot for each name, for the first value that was assigned to it. Each assignment stores
in the slot of its name, and each use of a name reads its slot. In a listing the slots are the first
lines of the entry, the latest one first, and no other line of the function sets up a slot. -/
theorem one_slot_per_local (ds : List Decl) (hparsed : ∀ d ∈ ds, d.Parsed) (f : Function)
    (hf : f ∈ (after ds).functions) (hblocks : f.blocks ≠ []) :
    ∃ i head ss log, BeginsBodyAt ds i f.signature.ident ∧ ds[i]? = some (.function head ss) ∧
      log.map Assignment.ident <+: head.params.map Param.ident ++ Stmt.allAssigned ss ∧
      ((Lowering.decl (.function head ss) (after (ds.take i))).1 = .ok () →
        log.map Assignment.ident = head.params.map Param.ident ++ Stmt.allAssigned ss) ∧
      f.Slotted log ∧ (f.slots.map Slot.ident).Nodup ∧
      (∀ ident, ident ∈ f.slots.map Slot.ident ↔ ident ∈ log.map Assignment.ident) ∧
      ∀ (b : Nat) block, f.blocks[b]? = some block → ∃ others : List Line,
        f.listing.blocks[b]? = some ⟨block.name,
          (if b = 0 then (Assignment.slots log).map Slot.listed else []) ++ others⟩ ∧
        ∀ line ∈ others, line.opcode ≠ "alloca" := by
  obtain ⟨i, head, ss, id, c₁, g, hbegins, hd, hok, hg, hmatches, hnil, heq⟩ :=
    exists_body_of_mem hparsed hf hblocks
  have hbare : g.slots = [] :=
    (Lowering.declares_of_eq hok).keeps (fun _ h ↦ h.declare head) (bare_after (ds.take i)) g
      (List.mem_of_getElem? hg) hnil
  have hmoves := Lowering.body_moves head ss c₁.outer (c₁.frame id g)
  have htypes : g.params.map Param.ty = head.params.map Param.ty := calc
    g.params.map Param.ty = f.params.map Param.ty := (heq ▸ hmoves.params).symm
    _ = f.signature.params := (registers_after hparsed).params f hf
    _ = g.signature.params := congrArg _ (heq ▸ hmoves.signature)
    _ = head.params.map Param.ty := hmatches.params
  obtain ⟨log, hslotted, hprefix, hall⟩ := Lowering.body_slotted head ss c₁.outer
    (c₁.frame id g) hnil hbare
  rw [Function.map_fst_bindings ((Frame.Extends.enter _ head).params.trans htypes)] at hprefix hall
  rw [heq] at hslotted
  have hidents : f.slots.map Slot.ident = ((Assignment.slots log).map Slot.ident).reverse := by
    rw [← hslotted.slots, List.map_reverse, List.reverse_reverse]
  refine ⟨i, head, ss, log, hbegins, hd, hprefix, fun haccepted ↦ ?_, hslotted, ?_, fun x ↦ ?_,
    fun b block hb ↦ hslotted.slots ▸ Function.listing_slots hb⟩
  · rw [Lowering.decl_of_blocks_eq_nil hok hg hnil] at haccepted
    exact hall haccepted
  · rw [hidents]
    exact List.nodup_reverse.mpr (Assignment.nodup_ident_slots log)
  · rw [hidents, List.mem_reverse, Assignment.mem_ident_slots]

/-- The body of `f` is refused at the call of `g`, behind three assignments and that of its
parameter. Within the conditional a slot is set up and another one is used again. -/
theorem one_slot_per_local_refused :
    let ds : List Decl := [.function ⟨.double, "f", [⟨.double, "x"⟩]⟩
      [.ifThen (.name "x") [.assign "y" (.text "a"), .assign "x" (.name "x")],
        .assign "z" (.name "x"), .eval (.call "g" [])]]
    ∃ f log, (after ds).functions = [f] ∧ f.Slotted log ∧
      log.map Assignment.ident <+: ["x", "y", "x", "z"] ∧
      f.contents 0 = [.inl ⟨"z", .double⟩, .inl ⟨"y", .string⟩, .inl ⟨"x", .double⟩] ++
        (f.code 0).map .inr ∧
      f.code 1 = [.store (.text 0) (.slot 1 .string), .load (.slot 0 .double) "x",
        .store (.temp 1 .double) (.slot 0 .double), .jump 2] := by
  intro ds
  have hparsed : ∀ d ∈ ds, d.Parsed := by
    simp only [ds, List.forall_mem_cons]
    exact ⟨parsed_of_first
      "def double f(double x) \x7b if x \x7b set y = \"a\"; set x = x; \x7d set z = x; g(); \x7d"
      (by decide +kernel), nofun⟩
  let f := ((after ds).functions[0]?).getD (Function.declared ⟨.double, "f", []⟩ "f")
  have hf : (after ds).functions = [f] := by decide +kernel
  obtain ⟨i, head, ss, log, -, hd, hprefix, -, hslotted, -⟩ :=
    one_slot_per_local ds hparsed f (hf ▸ List.mem_singleton_self f) (by decide +kernel)
  have hfirst : Decl.function head ss ∈ ds := List.mem_of_getElem? hd
  obtain ⟨rfl, rfl⟩ := Decl.function.inj (List.mem_singleton.mp hfirst)
  exact ⟨f, log, hf, hslotted, hprefix, by decide +kernel, by decide +kernel⟩

end Context

end BlockCompiler
