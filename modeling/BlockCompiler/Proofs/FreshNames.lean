import BlockCompiler.Proofs.Naming

/-!
# Requests for names

A request for a name that is in use is answered by a search: the counter is increased and written
behind the name until the name is free (`NameTable.Search`). The search has no bound of its own.
That of a name table has one, and ends at the same number (`NameTable.answers_iff`).

A table that holds exactly the names of some things (`NameTable.Holds`) still does so when one more
thing is named and when one of them is renamed, and no two of them come to have the same name. The
parameters of a function are renamed one by one. On the way a parameter may ask for a name that a
later one is about to give up, and then gets a number.
-/

namespace BlockCompiler

namespace NameTable

variable {t : NameTable} {used names : List String} {base joiner wanted old : String}

/-! ## The search for a number -/

/-- From the number `k` on, the next numbers are tried one after the other, up to the first one
under which the name is free. -/
inductive Search (used : List String) (base joiner : String) : Nat → Nat → Prop
  | free {k : Nat} (isFree : numbered base joiner (k + 1) ∉ used) :
      Search used base joiner k (k + 1)
  | taken {k k' : Nat} (isTaken : numbered base joiner (k + 1) ∈ used)
      (goesOn : Search used base joiner (k + 1) k') : Search used base joiner k k'

theorem Search.unique {k k₁ k₂ : Nat} (h₁ : Search used base joiner k k₁)
    (h₂ : Search used base joiner k k₂) : k₁ = k₂ := by
  induction h₁ with
  | free isFree =>
    cases h₂ with
    | free => rfl
    | taken isTaken => exact absurd isTaken isFree
  | taken isTaken _ ih =>
    cases h₂ with
    | free isFree => exact absurd isTaken isFree
    | taken _ goesOn => exact ih goesOn

theorem search_of_taken {k i : Nat} (htaken : ∀ j < i, numbered base joiner (k + 1 + j) ∈ used)
    (hfree : numbered base joiner (k + 1 + i) ∉ used) :
    Search used base joiner k (k + 1 + i) := by
  induction i generalizing k with
  | zero => exact .free hfree
  | succ i ih =>
    rw [show k + 1 + (i + 1) = k + 1 + 1 + i by omega] at hfree ⊢
    refine .taken (htaken 0 (Nat.succ_pos i)) (ih (fun j hj ↦ ?_) hfree)
    rw [show k + 1 + 1 + j = k + 1 + (j + 1) by omega]
    exact htaken (j + 1) (Nat.succ_lt_succ hj)

/-- The search ends, at the number that the table finds. -/
theorem search_firstFree (t : NameTable) (base joiner : String) :
    Search t.used base joiner t.counter (t.firstFree base joiner) := by
  have hfree := t.numbered_firstFree_not_mem base joiner
  simp only [firstFree, List.find?_map] at hfree ⊢
  generalize hfind : (List.range (t.used.length + 1)).find? _ = found at hfree ⊢
  cases found with
  | none => exact .free hfree
  | some i =>
    obtain ⟨-, -, hbefore⟩ := List.find?_range_eq_some.mp hfind
    exact search_of_taken (fun j hj ↦ by simpa using hbefore j hj) hfree

/-! ## Requests -/

/-- How a request is answered, and the table afterwards: a name that is free is given as it is, and
behind one that is in use the counter is increased until it is free. -/
inductive Answers (t : NameTable) (joiner wanted : String) : String × NameTable → Prop
  | asWanted (isFree : wanted ∉ t.used) :
      Answers t joiner wanted (wanted, { t with used := wanted :: t.used })
  | withNumber {k : Nat} (isTaken : wanted ∈ t.used)
      (search : Search t.used wanted joiner t.counter k) :
      Answers t joiner wanted
        (numbered wanted joiner k, ⟨numbered wanted joiner k :: t.used, k⟩)

/-- Every request is answered, and in one way. -/
theorem answers_iff {answer : String × NameTable} :
    t.Answers joiner wanted answer ↔ answer = t.add joiner wanted := by
  have hsearch := t.search_firstFree wanted joiner
  rw [add]
  constructor
  · rintro (isFree | ⟨isTaken, search⟩)
    · rw [if_neg isFree]
    · rw [if_pos isTaken, search.unique hsearch]
  · rintro rfl
    split
    · next isTaken => exact .withNumber isTaken hsearch
    · next isFree => exact .asWanted isFree

theorem add_fst_ne_empty (t : NameTable) (joiner : String) (h : wanted ≠ "") :
    (t.add joiner wanted).1 ≠ "" := by
  unfold add
  split
  · simp [numbered, h]
  · exact h

/-! ## Tables that hold names -/

/-- The table holds exactly these names, and no two of them are the same. -/
structure Holds (t : NameTable) (names : List String) : Prop where
  perm : t.used.Perm names
  nodup : names.Nodup

theorem Holds.of_perm {names' : List String} (h : t.Holds names) (hperm : names.Perm names') :
    t.Holds names' :=
  ⟨h.perm.trans hperm, hperm.nodup h.nodup⟩

/-- One more thing is named. -/
theorem Holds.add (h : t.Holds names) (joiner wanted : String) :
    (t.add joiner wanted).2.Holds ((t.add joiner wanted).1 :: names) := by
  refine ⟨?_, List.nodup_cons.mpr ⟨fun hmem ↦ ?_, h.nodup⟩⟩
  · rw [used_add]
    exact h.perm.cons _
  · exact t.add_fst_not_mem joiner wanted (h.perm.mem_iff.mpr hmem)

theorem Holds.release (h : t.Holds names) (old : String) :
    (t.release old).Holds (names.erase old) :=
  ⟨h.perm.erase old, h.nodup.erase old⟩

/-- A renaming is a request of the table in which the old name is free, also if the name stays. -/
theorem Holds.rename_fst (h : t.Holds names) (joiner wanted : String)
    (hold : old ∈ names ∨ old ≠ wanted) :
    (t.rename joiner old wanted).1 = ((t.release old).add joiner wanted).1 := by
  unfold NameTable.rename
  split
  · next heq =>
    subst heq
    have hfree : old ∉ (t.release old).used := fun hmem ↦
      h.nodup.not_mem_erase ((h.release old).perm.mem_iff.mp hmem)
    rw [NameTable.add, if_neg hfree]
  · rfl

/-- A thing is renamed, or one without a name in the table gets one. -/
theorem Holds.rename (h : t.Holds names) (joiner wanted : String)
    (hold : old ∈ names ∨ old ≠ wanted) :
    (t.rename joiner old wanted).2.Holds
      ((t.rename joiner old wanted).1 :: names.erase old) := by
  unfold NameTable.rename
  split
  · next heq => exact h.of_perm (List.perm_cons_erase (hold.resolve_right fun hne ↦ hne heq))
  · exact (h.release old).add joiner wanted

theorem rename_fst_ne_empty (t : NameTable) (joiner old : String) (h : wanted ≠ "") :
    (t.rename joiner old wanted).1 ≠ "" := by
  unfold rename
  split
  · next heq => exact heq ▸ h
  · exact (t.release old).add_fst_ne_empty joiner h

/-! ## Parameters

The names that the later parameters still have are in use when an earlier one is renamed, and so are
the new names of the earlier ones when a later one is. -/

/-- Parameters that have names are renamed. -/
theorem holds_renameParams :
    ∀ {t : NameTable} {ps : List Param} {names : List String} (wanted : List String),
      t.Holds (ps.map Param.ident ++ names) →
      (renameParams t ps wanted).2.Holds ((renameParams t ps wanted).1.map Param.ident ++ names)
  | _, [], _, _, h => h
  | _, _ :: _, _, [], h => h
  | _, _ :: _, _, wanted :: rest, h => by
    have hstep := h.rename "" wanted (.inl List.mem_cons_self)
    rw [List.map_cons, List.cons_append, List.erase_cons_head] at hstep
    exact (holds_renameParams rest (hstep.of_perm List.perm_middle.symm)).of_perm List.perm_middle

/-- Parameters without names get names, if there are enough of them. -/
theorem holds_renameParams_of_empty :
    ∀ {t : NameTable} {ps : List Param} {names wanted : List String}, t.Holds names → "" ∉ names →
      (∀ p ∈ ps, p.ident = "") → (∀ w ∈ wanted, w ≠ "") → ps.length ≤ wanted.length →
      (renameParams t ps wanted).2.Holds ((renameParams t ps wanted).1.map Param.ident ++ names)
  | _, [], _, _, h, _, _, _, _ => h
  | _, _ :: _, _, [], _, _, _, _, hlength => absurd hlength (by simp)
  | t, p :: ps, names, wanted :: rest, h, hnames, hps, hwanted, hlength => by
    obtain ⟨hp, hps⟩ := List.forall_mem_cons.mp hps
    obtain ⟨hw, hwanted⟩ := List.forall_mem_cons.mp hwanted
    have hstep := h.rename "" wanted (.inr hw.symm)
    rw [List.erase_of_not_mem hnames] at hstep
    have hnames : "" ∉ (t.rename "" "" wanted).1 :: names := by
      simpa [hnames] using (t.rename_fst_ne_empty "" "" hw).symm
    have hrest := holds_renameParams_of_empty hstep hnames hps hwanted
      (Nat.le_of_succ_le_succ hlength)
    rw [renameParams, hp]
    exact hrest.of_perm List.perm_middle

end NameTable

end BlockCompiler
