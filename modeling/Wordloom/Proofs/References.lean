import Wordloom.Proofs.Compiled

/-!
# Wordloom.Proofs.References

Imported programs. A program that is imported under a name stands in a table, once for each name, and is
called by its index there, of which there are 16 bits. As long as that is enough, an index leads to the
program that was first given for the name; the name that comes next gets the index of the first one.
-/

namespace Wordloom.Emitter

/-- The programs that are added, with their names. -/
def added (ops : List Op) : List (String × Program) :=
  ops.filterMap fun
    | .addReference name p => some (name, p)
    | _ => none

/-- Each name is in the table, with the program that was first given for it. -/
structure Refers (e : Emitter) (calls : List (String × Program)) : Prop where
  size : e.references.size = e.referenceNames.size
  program : ∀ (i : Nat) name, e.referenceNames[i]? = some name → e.references[i]? = calls.lookup name
  known : ∀ call ∈ calls, call.1 ∈ e.referenceNames

theorem addReference_of_index {e : Emitter} {name : String} {i : Nat}
    (h : e.referenceNames.findIdx? (· == name) = some i) (p : Program) :
    e.addReference name p = (i.toUInt16, e) := by
  rw [addReference, NameTable.index?_eq, h]

theorem addReference_of_new {e : Emitter} {name : String} (hnew : name ∉ e.referenceNames) (p : Program) :
    ∃ e', e.addReference name p = (e.references.size.toUInt16, e') ∧
      e'.references = e.references.push p ∧ e'.referenceNames = e.referenceNames.push name := by
  have hnone : e.referenceNames.findIdx? (· == name) = none :=
    Array.findIdx?_eq_none_iff.2 fun other hother => beq_false_of_ne fun heq => hnew (heq ▸ hother)
  rw [addReference, NameTable.index?_eq, hnone]
  exact ⟨_, rfl, rfl, rfl⟩

namespace Refers

variable {e e' : Emitter} {calls : List (String × Program)}

/-- What is added has an index, and the names that were there keep theirs. -/
theorem addReference (h : e.Refers calls) (name : String) (p : Program) :
    (e.addReference name p).2.Refers (calls ++ [(name, p)]) ∧
    (∃ i : Nat, (e.addReference name p).1 = i.toUInt16 ∧
      (e.addReference name p).2.referenceNames[i]? = some name) ∧
    e.referenceNames.toList <+: (e.addReference name p).2.referenceNames.toList := by
  have hlookup {i : Nat} {other : String} (hother : e.referenceNames[i]? = some other) :
      e.references[i]? = (calls ++ [(name, p)]).lookup other := by
    have hlt : i < e.references.size := h.size ▸ (Array.getElem?_eq_some_iff.1 hother).1
    rw [List.lookup_append, ← h.program i other hother, Array.getElem?_eq_getElem hlt]
    rfl
  cases hfind : e.referenceNames.findIdx? (· == name) with
  | some i =>
    obtain ⟨hlt, hname, -⟩ := Array.findIdx?_eq_some_iff_getElem.1 hfind
    have hname : e.referenceNames[i]? = some name := by
      rw [Array.getElem?_eq_getElem hlt, eq_of_beq hname]
    rw [addReference_of_index hfind]
    refine ⟨⟨h.size, fun _ _ => hlookup, fun call hcall => ?_⟩, ⟨i, rfl, hname⟩, List.prefix_refl _⟩
    obtain hcall | rfl := List.mem_append.1 hcall |>.imp_right List.mem_singleton.1
    · exact h.known call hcall
    · exact Array.mem_of_getElem? hname
  | none =>
    have hnew : ∀ other ∈ e.referenceNames, other ≠ name := fun other hother =>
      ne_of_beq_false (Array.findIdx?_eq_none_iff.1 hfind other hother)
    obtain ⟨e', hadd, hreferences, hnames⟩ := addReference_of_new (fun hname => hnew name hname rfl) p
    rw [hadd]
    refine ⟨⟨?_, fun i other hother => ?_, fun call hcall => ?_⟩, ⟨e.references.size, rfl, ?_⟩, ?_⟩
    · rw [hreferences, hnames, Array.size_push, Array.size_push, h.size]
    · rw [hnames, Array.getElem?_push] at hother
      rw [hreferences, Array.getElem?_push, h.size]
      split
      · rename_i heq
        rw [if_pos heq] at hother
        cases hother
        have hnone : calls.lookup name = none := by
          rw [List.lookup_eq_none_iff]
          exact fun call hcall => bne_iff_ne.2 (hnew call.1 (h.known call hcall)).symm
        rw [List.lookup_append, hnone]
        simp
      · rename_i hne
        rw [if_neg hne] at hother
        exact hlookup hother
    · rw [hnames, Array.mem_push]
      obtain hcall | rfl := List.mem_append.1 hcall |>.imp_right List.mem_singleton.1
      · exact .inl (h.known call hcall)
      · exact .inr rfl
    · rw [hnames, h.size]
      exact Array.getElem?_push_size
    · rw [hnames, Array.toList_push]
      exact List.prefix_append _ _

theorem apply (h : e.Refers calls) (op : Op) : (e.apply op).Refers (calls ++ added [op]) ∧
    e.referenceNames.toList <+: (e.apply op).referenceNames.toList := by
  have hkeep {e' : Emitter} (hreferences : e'.references = e.references)
      (hnames : e'.referenceNames = e.referenceNames) :
      e'.Refers (calls ++ []) ∧ e.referenceNames.toList <+: e'.referenceNames.toList := by
    obtain ⟨hsize, hprogram, hknown⟩ := h
    rw [← hreferences, ← hnames] at hsize hprogram
    rw [← hnames] at hknown ⊢
    rw [List.append_nil]
    exact ⟨⟨hsize, hprogram, hknown⟩, List.prefix_refl _⟩
  have hsame {e' : Emitter} (htables : e'.tables = e.tables) :=
    hkeep (congrArg Tables.references htables) (congrArg Tables.referenceNames htables)
  cases op with
  | mark p => exact hsame (tables_mark e p)
  | emitString use s => exact hsame (tables_emitString e use s)
  | patch offset target => exact hsame (tables_patch e offset target)
  | emit | reserveBlock | setBlock | addQuery => exact hkeep rfl rfl
  | addRegex source =>
    obtain ⟨regexes, hregexes⟩ := apply_addRegex e source
    rw [hregexes]
    exact hkeep rfl rfl
  | addReference name p => exact ⟨(h.addReference name p).1, (h.addReference name p).2.2⟩

theorem applyAll (h : e.Refers calls) (ops : List Op) :
    (ops.foldl Emitter.apply e).Refers (calls ++ added ops) ∧
    e.referenceNames.toList <+: (ops.foldl Emitter.apply e).referenceNames.toList := by
  induction ops generalizing e calls with
  | nil => exact ⟨by simpa [added] using h, List.prefix_refl _⟩
  | cons op ops ih =>
    obtain ⟨hop, hgrown⟩ := h.apply op
    obtain ⟨hops, hgrown'⟩ := ih hop
    rw [List.append_assoc, added, added, ← List.filterMap_append] at hops
    exact ⟨hops, hgrown.trans hgrown'⟩

theorem start (debug : Bool) : ({ debug } : Emitter).Refers [] :=
  ⟨rfl, fun i name h => by simp [referenceNames, NameTable.empty] at h, fun _ h => by cases h⟩

end Refers

theorem referenceNames_build (e : Emitter) (title : String) :
    (e.build title).referenceNames = e.referenceNames :=
  congrArg Tables.referenceNames (Compile.tables_build e title)

theorem reference?_build (e : Emitter) (title : String) (index : UInt16) :
    (e.build title).reference? index = e.references[index.toNat]? := by
  have hreferences : (e.build title).references.toArray = e.references :=
    congrArg Tables.references (Compile.tables_build e title)
  rw [Program.reference?, ← List.getElem?_toArray, hreferences]

/-- As long as there are no more names than there are indices, the index that is given for a name leads
to that name in the program, and to the program that was given for it first. -/
theorem reference_of_addReference (debug : Bool) (before after : List Op) (name title : String) (p : Program)
    {index : UInt16} {e e' : Emitter} (he : (before.foldl apply { debug }).addReference name p = (index, e))
    (he' : after.foldl apply e = e') (hfew : e'.referenceNames.size ≤ UInt16.size) :
    (e'.build title).referenceNames[index.toNat]? = some name ∧
    (e'.build title).reference? index = (added before ++ [(name, p)]).lookup name := by
  obtain ⟨hadded, ⟨i, hindex, hi⟩, -⟩ := ((Refers.start debug).applyAll before).1.addReference name p
  simp only [he, List.nil_append] at hadded hindex hi
  obtain ⟨hrefers, rest, hgrown⟩ := hadded.applyAll after
  rw [he'] at hrefers hgrown
  obtain ⟨hlt, -⟩ := Array.getElem?_eq_some_iff.1 hi
  have hi' : e'.referenceNames[i]? = some name := by
    rw [← Array.getElem?_toList, ← hgrown, List.getElem?_append_left hlt, Array.getElem?_toList]
    exact hi
  have hsmall : index.toNat = i := by
    have hlt' := (Array.getElem?_eq_some_iff.1 hi').1
    rw [hindex]
    exact Nat.mod_eq_of_lt (Nat.lt_of_lt_of_le hlt' hfew)
  have hfirst := hadded.program i name hi
  rw [Array.getElem?_eq_getElem (hadded.size ▸ hlt)] at hfirst
  refine ⟨by rw [referenceNames_build, hsmall, hi'], ?_⟩
  rw [reference?_build, hsmall, hrefers.program i name hi', List.lookup_append, ← hfirst]
  rfl

/-- A name that was given before leads to the program that was given then. -/
theorem reference_of_addReference_again : ∃ first second third : Program, first.name ≠ third.name ∧
    ∃ index e, ([Op.addReference "a" first, .addReference "b" second].foldl apply
      { debug := false }).addReference "a" third = (index, e) ∧
    (e.build "main").reference? index = some first := by
  let first : Program := { name := "first", code := #[] }
  let second : Program := { name := "second", code := #[] }
  let third : Program := { name := "third", code := #[] }
  exact ⟨first, second, third, by decide, _, _, rfl,
    (reference_of_addReference false [.addReference "a" first, .addReference "b" second] [] "a" "main"
      third rfl rfl (by decide +kernel)).2⟩

/-! ## Too many names -/

/-- A name of the given length. -/
def nameOf (length : Nat) : String := String.ofList (List.replicate length 'a')

theorem nameOf_mem {n : Nat} {names : List Nat} (h : nameOf n ∈ names.map nameOf) : n ∈ names := by
  obtain ⟨m, hm, heq⟩ := List.mem_map.1 h
  have hlength := congrArg String.length heq
  simp only [nameOf, String.length_ofList, List.length_replicate] at hlength
  exact hlength ▸ hm

/-- So many names. -/
def manyNames (p : Program) (n : Nat) : Emitter :=
  ((List.range n).map fun i => Op.addReference (nameOf i) p).foldl apply { debug := false }

theorem manyNames_eq (p : Program) (n : Nat) :
    (manyNames p n).referenceNames.toList = (List.range n).map nameOf ∧
    (manyNames p n).references.toList = List.replicate n p := by
  induction n with
  | zero => exact ⟨rfl, rfl⟩
  | succ n ih =>
    have hnew : nameOf n ∉ (manyNames p n).referenceNames := fun h =>
      List.not_mem_range_self (nameOf_mem (ih.1 ▸ Array.mem_toList_iff.2 h))
    have hstep : manyNames p (n + 1) = ((manyNames p n).addReference (nameOf n) p).2 := by
      rw [manyNames, List.range_succ, List.map_append, List.foldl_append]
      rfl
    obtain ⟨e', hadd, hreferences, hnames⟩ := addReference_of_new hnew p
    rw [hstep, hadd, hreferences, hnames, Array.toList_push, Array.toList_push, ih.1, ih.2,
      List.range_succ, List.map_append, List.replicate_succ']
    exact ⟨rfl, rfl⟩

/-- The program that comes when there is no index left gets that of the first one, and is not called. -/
theorem addReference_wraps : ∃ (first last : Program) (index : UInt16) (e : Emitter),
    first.name ≠ last.name ∧
    (manyNames first UInt16.size).addReference (nameOf UInt16.size) last = (index, e) ∧
    (e.build "main").referenceNames[index.toNat]? = some (nameOf 0) ∧
    (e.build "main").reference? index = some first := by
  let first : Program := { name := "first", code := #[] }
  let last : Program := { name := "last", code := #[] }
  obtain ⟨hnames, hprograms⟩ := manyNames_eq first UInt16.size
  have hnew : nameOf UInt16.size ∉ (manyNames first UInt16.size).referenceNames := fun h =>
    List.not_mem_range_self (nameOf_mem (hnames ▸ Array.mem_toList_iff.2 h))
  have hsize : (manyNames first UInt16.size).references.size = UInt16.size := by
    rw [← Array.length_toList, hprograms, List.length_replicate]
  obtain ⟨e', hadd, hreferences, hnames'⟩ := addReference_of_new hnew last
  rw [hsize] at hadd
  refine ⟨first, last, 0, e', by decide, hadd, ?_, ?_⟩
  · rw [referenceNames_build, hnames', ← Array.getElem?_toList, Array.toList_push, hnames,
      List.getElem?_append_left (by simp), List.getElem?_map, UInt16.toNat_zero,
      List.getElem?_range (by decide)]
    rfl
  · rw [reference?_build, hreferences, ← Array.getElem?_toList, Array.toList_push, hprograms,
      List.getElem?_append_left (by simp), UInt16.toNat_zero, List.getElem?_replicate_of_lt (by decide)]

end Wordloom.Emitter
