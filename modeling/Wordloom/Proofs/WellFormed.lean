import Wordloom.Proofs.Blocks
import Wordloom.Proofs.Checks
import Wordloom.Proofs.Compiled

/-!
# Wordloom.Proofs.WellFormed

Well-formed programs: every operand that is an address is the offset of an instruction or the end of
the code, every operand that is an index is within its table, jumps and blocks only lead ahead, and
subroutines are called with as many arguments as they read. Whatever is compiled is of this kind, and
so is the code that a program with faulty imports has of its own.
-/

namespace Wordloom

/-! ## Programs -/

/-- The body of a subroutine: where it starts, where the code behind it goes on, and the number of
its arguments. -/
structure Body where
  start : Nat
  stop : Nat
  arity : Nat

def Body.Encloses (b : Body) (n : Nat) : Prop := b.start ≤ n ∧ n < b.stop

/-- The body that an offset is in, and that is in all others that the offset is in. -/
structure Body.Innermost (bodies : List Body) (n : Nat) (b : Body) : Prop where
  mem : b ∈ bodies
  encloses : b.Encloses n
  inner : ∀ other ∈ bodies, other.Encloses n → other.start ≤ b.start

namespace Program

variable (p : Program)

/-- The instructions with their offsets. -/
def placed : List Instr.Placed := (Instr.decodeAll p.code).1

/-- The offset of an instruction, or the end of the code. -/
def Boundary (n : Nat) : Prop := n = p.code.size ∨ ∃ i, (n, i) ∈ p.placed

/-- A jump leads around the body, and a return ends it. -/
structure HasBody (b : Body) : Prop where
  start : p.Boundary b.start
  skipped : ∃ n, n + 5 = b.start ∧ (n, .jump (Int32.ofNat b.stop)) ∈ p.placed
  ended : ∃ n, n + 1 = b.stop ∧ (n, .return) ∈ p.placed

end Program

/-- A block that is entered at the offset `n`. -/
structure Block.Lies (p : Program) (n : Nat) (b : Block) : Prop where
  items_ne_nil : b.items ≠ []
  stop : p.Boundary b.endAddress.toNat
  items : ∀ item ∈ b.items, p.Boundary item.offset.toNat ∧ n < item.offset.toNat ∧
    item.offset.toNat < b.endAddress.toNat
  weights : ∀ item ∈ b.items, ∀ w, item.weight = .interpreted w →
    p.Boundary w.toNat ∧ n < w.toNat ∧ w.toNat < item.offset.toNat

/-- What the instruction at the offset `n` refers to is there. -/
def Instr.Refers (p : Program) (bodies : List Body) (n : Nat) : Instr → Prop
  | .printString index | .pushString index | .openChannel index _ => (p.string? index).isSome
  | .block index => ∃ b, p.block? index = some b ∧ b.Lies p n
  | .query index => (p.query? index).isSome
  | .callProgram index => (p.reference? index).isSome
  | .call address count =>
    ∃ b ∈ bodies, (b.start : Int) = address.toInt ∧ b.arity = count.toNat
  | .pushAddress address => 0 ≤ address.toInt ∧ p.Boundary address.toInt.toNat
  | i => ∀ address, i.target? = some address →
    (n : Int) < address.toInt ∧ p.Boundary address.toInt.toNat

/-- All references of a program lead somewhere. -/
structure Program.WellFormed (p : Program) : Prop where
  decodes : ∃ is, p.code.toList = Instr.flatten is ∧
    Instr.decodeAll p.code = (Instr.place 0 is, none)
  blocks : ∀ (index : Nat) (b : Block), p.blocks[index]? = some b →
    ∃ n, (n, .block (Int32.ofNat index)) ∈ p.placed ∧ b.Lies p n
  filters : ∀ q ∈ p.queries, RegexFilter.AllIn q.regexFilters p.regexes
  bodies : ∃ bodies : List Body, bodies.Pairwise (·.start < ·.start) ∧
    (∀ b ∈ bodies, p.HasBody b) ∧
    (∀ n i, (n, i) ∈ p.placed → i.Refers p bodies n) ∧
    ∀ n index, (n, .loadArgument index) ∈ p.placed →
      ∃ b, Body.Innermost bodies n b ∧ index.toNat < b.arity

/-! ## Lines at their offsets -/

namespace Line

variable {P Q : Nat → Line → Prop} {base n : Nat} {ls ms : List Line}

/-- Every line has `P` at its offset, the first one being at `base`. -/
def AllAt (P : Nat → Line → Prop) : (base : Nat) → List Line → Prop
  | _, [] => True
  | base, l :: ls => P base l ∧ AllAt P (base + l.size) ls

theorem AllAt.append (h : AllAt P base ls) (h' : AllAt P n ms) (hn : base + sizes ls = n) :
    AllAt P base (ls ++ ms) := by
  induction ls generalizing base with
  | nil =>
    rw [sizes_nil, Nat.add_zero] at hn
    rw [hn]
    exact h'
  | cons l ls ih =>
    rw [sizes_cons, ← Nat.add_assoc] at hn
    exact ⟨h.1, ih h.2 hn⟩

theorem AllAt.mono (h : AllAt P base ls)
    (hPQ : ∀ n l, base ≤ n → n < base + sizes ls → P n l → Q n l) : AllAt Q base ls := by
  induction ls generalizing base with
  | nil => trivial
  | cons l ls ih =>
    have hpos := l.size_pos
    rw [sizes_cons] at hPQ
    exact ⟨hPQ base l (Nat.le_refl _) (by omega) h.1,
      ih h.2 fun n l hle hlt => hPQ n l (by omega) (by omega)⟩

/-- The instructions of the lines have what the lines have. -/
theorem AllAt.placed {strings : Array String} {is : List Instr} (h : AllAt P base ls)
    (hlines : is.map (ofInstr? strings) = ls.map some) {i : Instr} (hi : (n, i) ∈ Instr.place base is) :
    ∃ l, ofInstr? strings i = some l ∧ P n l := by
  induction is generalizing base ls with
  | nil => cases hi
  | cons j is ih =>
    cases ls with
    | nil => simp at hlines
    | cons l ls =>
      rw [List.map_cons, List.map_cons, List.cons_eq_cons] at hlines
      obtain hi | hi := List.mem_cons.1 hi
      · cases hi
        exact ⟨l, hlines.1, h.1⟩
      · rw [size_of_ofInstr? hlines.1] at hi
        exact ih h.2 hlines.2 hi

end Line

namespace Program

variable {p : Program} {n : Nat} {ls : List Line}

theorem placed_of_flatten {is : List Instr} (h : p.code.toList = Instr.flatten is) :
    p.placed = Instr.place 0 is := by
  rw [placed, Instr.decodeAll_flatten h]

theorem Has.mem_placed {l : Line} (h : p.Has n (l :: ls)) :
    ∃ i, (n, i) ∈ p.placed ∧ Line.ofInstr? p.strings i = some l := by
  obtain ⟨before, after, ⟨is, hcode, hlines⟩, hsize⟩ := h
  rw [List.append_assoc, List.cons_append, List.map_append, List.map_eq_append_iff] at hlines
  obtain ⟨front, rest, rfl, hfront, hrest⟩ := hlines
  obtain ⟨i, back, rfl, hi, -⟩ := List.map_eq_cons_iff.1 hrest
  refine ⟨i, ?_, hi⟩
  rw [placed_of_flatten hcode, Instr.place_append, Line.sizes_of_ofInstr? hfront, hsize, Nat.zero_add]
  exact List.mem_append_right _ List.mem_cons_self

theorem Has.mem_placed_plain {i : Instr} (h : p.Has n (.plain i :: ls)) : (n, i) ∈ p.placed := by
  obtain ⟨j, hj, hline⟩ := h.mem_placed
  rwa [Line.eq_of_ofInstr?_plain hline] at hj

theorem Has.boundary (h : p.Has n ls) : p.Boundary n := by
  obtain ⟨before, after, hreads, hsize⟩ := h
  cases hrest : ls ++ after with
  | nil =>
    rw [List.append_assoc, hrest, List.append_nil] at hreads
    exact .inl (by rw [hreads.size, hsize])
  | cons l rest =>
    have hhas : p.Has n (l :: rest) := by
      refine ⟨before, [], ?_, hsize⟩
      rw [List.append_nil, ← hrest, ← List.append_assoc]
      exact hreads
    obtain ⟨i, hi, -⟩ := hhas.mem_placed
    exact .inr ⟨i, hi⟩

end Program

/-! ## Trees -/

/-- What a line at the offset `n` refers to is there. -/
def Line.Refers (p : Program) (bodies : List Body) (n : Nat) : Line → Prop
  | .plain i => i.Refers p bodies n
  | .text _ _ => True

/-- An argument is one of the subroutine that the line is in, or one of `k` outside of any. -/
def Line.Argued (bodies : List Body) (k n : Nat) : Line → Prop
  | .plain (.loadArgument index) =>
    (∃ b, Body.Innermost bodies n b ∧ index.toNat < b.arity) ∨
      (∀ b ∈ bodies, ¬ b.Encloses n) ∧ index.toNat < k
  | _ => True

/-- Lines at the offset `base` of a program with the given bodies, of which `own` are defined in these
lines; outside of them there are `k` arguments. -/
structure Lies (p : Program) (bodies : List Body) (k base : Nat) (ls : List Line) (own : List Body) :
    Prop where
  refers : Line.AllAt (Line.Refers p bodies) base ls
  argued : Line.AllAt (Line.Argued own k) base ls
  within : ∀ b ∈ own, base < b.start ∧ b.start < b.stop ∧ b.stop ≤ base + Line.sizes ls
  sorted : own.Pairwise (·.start < ·.start)
  has : ∀ b ∈ own, p.HasBody b

namespace Lies

variable {p : Program} {bodies : List Body} {k base n : Nat} {ls ms : List Line}
  {own more : List Body}

theorem argued_of_outside {l : Line} (before after : List Body)
    (hbefore : ∀ b ∈ before, ¬ b.Encloses n) (hafter : ∀ b ∈ after, ¬ b.Encloses n)
    (h : l.Argued own k n) : l.Argued (before ++ own ++ after) k n := by
  unfold Line.Argued at h ⊢
  split at h
  · obtain ⟨b, hb, hindex⟩ | ⟨hnone, hindex⟩ := h
    · refine .inl ⟨b, ⟨by simp [hb.mem], hb.encloses, fun other hother henclosed => ?_⟩, hindex⟩
      obtain (hother | hother) | hother := by simpa only [List.mem_append] using hother
      · exact absurd henclosed (hbefore other hother)
      · exact hb.inner other hother henclosed
      · exact absurd henclosed (hafter other hother)
    · refine .inr ⟨fun b hb => ?_, hindex⟩
      obtain (hb | hb) | hb := by simpa only [List.mem_append] using hb
      · exact hbefore b hb
      · exact hnone b hb
      · exact hafter b hb
  · trivial

theorem append (h : Lies p bodies k base ls own) (h' : Lies p bodies k n ms more)
    (hn : base + Line.sizes ls = n) : Lies p bodies k base (ls ++ ms) (own ++ more) where
  refers := h.refers.append h'.refers hn
  argued := by
    refine Line.AllAt.append (h.argued.mono fun i l hle hlt hl => ?_)
      (h'.argued.mono fun i l hle hlt hl => ?_) hn
    · refine argued_of_outside [] more (by nofun) (fun b hb henclosed => ?_) hl
      have hrange := h'.within b hb
      have hstart := henclosed.1
      omega
    · rw [← List.append_nil (own ++ more)]
      refine argued_of_outside own [] (fun b hb henclosed => ?_) (by nofun) hl
      have hrange := h.within b hb
      have hstop := henclosed.2
      omega
  within b hb := by
    rw [Line.sizes_append]
    obtain hb | hb := List.mem_append.1 hb
    · have hrange := h.within b hb
      omega
    · have hrange := h'.within b hb
      omega
  sorted := by
    refine List.pairwise_append.2 ⟨h.sorted, h'.sorted, fun b hb b' hb' => ?_⟩
    have hrange := h.within b hb
    have hrange' := h'.within b' hb'
    omega
  has b hb := by
    obtain hb | hb := List.mem_append.1 hb
    · exact h.has b hb
    · exact h'.has b hb

/-- Lines that define nothing. -/
theorem plain (hrefers : Line.AllAt (Line.Refers p bodies) base ls)
    (hargued : Line.AllAt (Line.Argued [] k) base ls) : Lies p bodies k base ls [] :=
  ⟨hrefers, hargued, by nofun, .nil, by nofun⟩

/-- A subroutine, with a jump around its body. -/
theorem define {arity : Nat} {target : Int32}
    (hbody : Lies p bodies arity (base + 5) ls own)
    (hjump : (Instr.jump target).Refers p bodies base)
    (hhas : p.HasBody ⟨base + 5, base + 5 + Line.sizes ls + 1, arity⟩) :
    Lies p bodies k base (.plain (.jump target) :: ls ++ [.plain .return])
      (⟨base + 5, base + 5 + Line.sizes ls + 1, arity⟩ :: own) where
  refers := by
    refine ⟨hjump, hbody.refers.append ⟨?_, trivial⟩ rfl⟩
    rintro address ⟨⟩
  argued := by
    refine ⟨trivial, Line.AllAt.append (hbody.argued.mono fun i l hle hlt hl => ?_)
      ⟨trivial, trivial⟩ rfl⟩
    -- what is outside of the subroutines in the body is in the body
    change base + 5 ≤ i at hle
    unfold Line.Argued at hl ⊢
    split at hl
    · refine .inl ?_
      obtain ⟨b, hb, hindex⟩ | ⟨hnone, hindex⟩ := hl
      · refine ⟨b, ⟨List.mem_cons_of_mem _ hb.mem, hb.encloses, fun other hother henclosed => ?_⟩,
          hindex⟩
        obtain rfl | hother := List.mem_cons.1 hother
        · have hrange := hbody.within b hb.mem
          exact Nat.le_of_lt hrange.1
        · exact hb.inner other hother henclosed
      · refine ⟨_, ⟨List.mem_cons_self, ⟨hle, Nat.lt_succ_of_lt hlt⟩, fun other hother henclosed => ?_⟩,
          hindex⟩
        obtain rfl | hother := List.mem_cons.1 hother
        · exact Nat.le_refl _
        · exact absurd henclosed (hnone other hother)
    · trivial
  within b hb := by
    have hsizes : Line.sizes (.plain (.jump target) :: ls ++ [.plain .return]) =
        5 + Line.sizes ls + 1 := by
      rw [List.cons_append, Line.sizes_cons, Line.sizes_append, ← Nat.add_assoc]
      rfl
    rw [hsizes]
    obtain rfl | hb := List.mem_cons.1 hb
    · dsimp only
      omega
    · have hrange := hbody.within b hb
      omega
  sorted := List.pairwise_cons.2 ⟨fun b hb => (hbody.within b hb).1, hbody.sorted⟩
  has b hb := by
    obtain rfl | hb := List.mem_cons.1 hb
    · exact hhas
    · exact hbody.has b hb

end Lies

/-- Lines that lie between two offsets. -/
structure Spans (p : Program) (bodies : List Body) (k base stop : Nat) (ls : List Line)
    (own : List Body) : Prop where
  lies : Lies p bodies k base ls own
  stop : base + Line.sizes ls = stop

namespace Spans

variable {p : Program} {bodies : List Body} {k base m n : Nat} {ls ms : List Line}
  {own more : List Body}

theorem append (h : Spans p bodies k base n ls own) (h' : Spans p bodies k n m ms more) :
    Spans p bodies k base m (ls ++ ms) (own ++ more) :=
  ⟨h.lies.append h'.lies h.stop, by rw [Line.sizes_append, ← Nat.add_assoc, h.stop, h'.stop]⟩

/-- Lines that define nothing follow. -/
theorem plain (h : Spans p bodies k base n ls own) (h' : Lies p bodies k n ms [])
    (hm : n + Line.sizes ms = m) : Spans p bodies k base m (ls ++ ms) own := by
  have happend := h.append ⟨h', hm⟩
  rwa [List.append_nil] at happend

end Spans

/-- What may be referred to is in the program. -/
structure Reach.In (s : Reach) (p : Program) (bodies : List Body) : Prop where
  tables : s.tables = p.tables
  known : ∀ address arity, s.known address arity →
    address < 2 ^ 31 ∧ ∃ b ∈ bodies, b.start = address ∧ b.arity = arity
  small : p.code.size < 2 ^ 31

/-- The place of a subroutine. -/
def Definition.region (d : Definition) : Body := ⟨d.address, d.address + d.body.size + 1, d.arity⟩

section

variable {p : Program} {bodies : List Body} {s : Reach} {lib : Option Registry} {base n t : Nat}
  {ls : List Line}

theorem Reach.In.withArity (h : s.In p bodies) (arity : Nat) :
    ({ s with arity := arity } : Reach).In p bodies := ⟨h.tables, h.known, h.small⟩

theorem Reach.In.lt (h : s.In p bodies) (hhas : p.Has t ls) : t < 2 ^ 31 := by
  have hsmall := h.small
  have hle := hhas.le_size
  omega

/-- A jump ahead to where there are lines. -/
theorem Reach.In.refers_jump (h : s.In p bodies) {i : Instr}
    (hi : i.target? = some (Int32.ofNat t)) (hhas : p.Has t ls) (hlt : n < t) :
    i.Refers p bodies n := by
  have hint : (Int32.ofNat t).toInt = t := Int32.toInt_ofNat_of_lt (h.lt hhas)
  unfold Instr.Refers
  split
  any_goals cases hi
  intro address haddress
  cases hi.symm.trans haddress
  rw [hint, Int.toNat_natCast]
  exact ⟨Int.ofNat_lt.2 hlt, hhas.boundary⟩

theorem Reach.In.lies_jump (h : s.In p bodies) {k : Nat} (hhas : p.Has t ls) (hlt : base < t) :
    Lies p bodies k base [.plain (.jump (Int32.ofNat t))] [] :=
  .plain ⟨h.refers_jump (i := .jump (Int32.ofNat t)) rfl hhas hlt, trivial⟩ ⟨trivial, trivial⟩

theorem Test.target?_jump (test : Test) (target : Int32) :
    (test.jump target).target? = some target := by
  cases test <;> rfl

theorem Act.lies {a : Act} (hs : s.In p bodies) (hhas : p.Has base a.lines)
    (h : a.Sound s.tables s.arity base) : Lies p bodies s.arity base a.lines [] := by
  cases a with
  | print | openChannel => exact .plain ⟨trivial, trivial⟩ ⟨trivial, trivial⟩
  | query index =>
    obtain ⟨hle, hindex⟩ := h
    have hlt := hs.lt hhas
    rw [hs.tables] at hindex
    refine .plain ⟨?_, trivial⟩ ⟨trivial, trivial⟩
    change (Program.lookup? p.queries (Int32.ofNat index)).isSome
    rw [Program.lookup?_ofNat _ (by omega), isSome_getElem?]
    exact hindex
  | argument index =>
    exact .plain ⟨by rintro address ⟨⟩, by rintro address ⟨⟩, trivial⟩
      ⟨.inr ⟨by nofun, h⟩, trivial, trivial⟩
  | getLocal | concat =>
    exact .plain ⟨by rintro address ⟨⟩, by rintro address ⟨⟩, trivial⟩ ⟨trivial, trivial, trivial⟩
  | arithmetic op =>
    cases op <;>
    exact .plain ⟨by rintro address ⟨⟩, by rintro address ⟨⟩, trivial⟩ ⟨trivial, trivial, trivial⟩
  | _ => exact .plain ⟨by rintro address ⟨⟩, trivial⟩ ⟨trivial, trivial⟩

theorem Constant.lies {c : Constant} {k : Nat} : Lies p bodies k base c.lines [] := by
  cases c with
  | string => exact .plain ⟨trivial, trivial⟩ ⟨trivial, trivial⟩
  | number => exact .plain ⟨by rintro address ⟨⟩, trivial⟩ ⟨trivial, trivial⟩
  | spelled => exact .plain ⟨trivial, by rintro address ⟨⟩, trivial⟩ ⟨trivial, trivial, trivial⟩

theorem lies_captureEnd (numeric : Bool) {k : Nat} : Lies p bodies k base (captureEnd numeric) [] := by
  cases numeric with
  | true =>
    exact .plain ⟨by rintro address ⟨⟩, by rintro address ⟨⟩, trivial⟩ ⟨trivial, trivial, trivial⟩
  | false => exact .plain ⟨by rintro address ⟨⟩, trivial⟩ ⟨trivial, trivial⟩

/-- A comparison with the jumps behind it. -/
theorem Test.lies (test : Test) {k first second : Nat} (hs : s.In p bodies)
    (hfirst : p.Has first ls) {ms : List Line} (hsecond : p.Has second ms)
    (hlt : base + 6 < first) (hle : first ≤ second) :
    Lies p bodies k base [.plain .compare, .plain (test.jump (Int32.ofNat first)),
      .plain (.jump (Int32.ofNat second))] [] := by
  have hrefers := hs.refers_jump (test.target?_jump _) hfirst (n := base + 1) (by omega)
  have hjump := hs.refers_jump (i := .jump (Int32.ofNat second)) rfl hsecond (n := base + 1 + 5)
    (by omega)
  refine .plain ⟨by rintro address ⟨⟩, hrefers, ?_, trivial⟩ ?_
  · rw [Line.size, Line.size, test.size_jump]
    exact hjump
  · cases test <;> exact ⟨trivial, trivial, trivial, trivial⟩

/-- The entries of choices are between their first and their last instruction. -/
theorem Choices.entries_between : ∀ (cs : Choices) {base : Nat}, p.code.size < 2 ^ 31 →
    p.Has base (cs.lines base) → ∀ entry ∈ cs.entries base,
      (p.Boundary entry.offset.toNat ∧ base ≤ entry.offset.toNat ∧
        entry.offset.toNat < base + cs.size) ∧
      ∀ w, entry.weight = .interpreted w →
        p.Boundary w.toNat ∧ base ≤ w.toNat ∧ w.toNat < entry.offset.toNat
  | .nil, _, _, _, entry, hentry => by cases hentry
  | .item weight body next, base, hsmall, hhas, entry, hentry => by
    obtain ⟨hbody, hnext⟩ := Choices.has_item hhas
    have hle := hbody.le_size
    have hbase : base.toUInt32.toNat = base := toNat_toUInt32 (by omega)
    rw [Choices.size]
    obtain rfl | hentry := List.mem_cons.1 hentry
    · simp only [hbase]
      refine ⟨⟨hbody.boundary, by omega, by omega⟩, fun w hw => ?_⟩
      cases weight <;> cases hw
    · obtain ⟨⟨hoffset, hlow, hhigh⟩, hweight⟩ := next.entries_between hsmall hnext entry hentry
      refine ⟨⟨hoffset, by omega, by omega⟩, fun w hw => ?_⟩
      obtain ⟨hw, hlow, hhigh⟩ := hweight w hw
      exact ⟨hw, by omega, hhigh⟩
  | .weighted weight body next, base, hsmall, hhas, entry, hentry => by
    obtain ⟨hopen, -, hbody, hnext⟩ := Choices.has_weighted hhas
    have hle := hbody.le_size
    have hbase : base.toUInt32.toNat = base := toNat_toUInt32 (by omega)
    have hoffset : (base + 1 + weight.size + 2).toUInt32.toNat = base + 1 + weight.size + 2 :=
      toNat_toUInt32 (by omega)
    rw [Choices.size]
    obtain rfl | hentry := List.mem_cons.1 hentry
    · simp only [hoffset]
      refine ⟨⟨hbody.boundary, by omega, by omega⟩, fun w hw => ?_⟩
      cases hw
      rw [hbase]
      exact ⟨hopen.boundary, by omega, by omega⟩
    · obtain ⟨⟨hoffset, hlow, hhigh⟩, hweight⟩ := next.entries_between hsmall hnext entry hentry
      refine ⟨⟨hoffset, by omega, by omega⟩, fun w hw => ?_⟩
      obtain ⟨hw, hlow, hhigh⟩ := hweight w hw
      exact ⟨hw, by omega, hhigh⟩

/-- The entry of a block that is complete. -/
theorem Choices.block_lies {cs : Choices} (hsmall : p.code.size < 2 ^ 31)
    (hhas : p.Has (base + 5) (cs.lines (base + 5))) (hstop : p.Has (base + 5 + cs.size) ls)
    (hne : cs.entries (base + 5) ≠ []) :
    Block.Lies p base ⟨(base + 5 + cs.size).toUInt32, cs.entries (base + 5)⟩ := by
  have hle := hstop.le_size
  have hend : (base + 5 + cs.size).toUInt32.toNat = base + 5 + cs.size := toNat_toUInt32 (by omega)
  refine ⟨hne, ?_, fun item hitem => ?_, fun item hitem w hw => ?_⟩
  · rw [hend]
    exact hstop.boundary
  · obtain ⟨⟨hoffset, hlow, hhigh⟩, -⟩ := cs.entries_between hsmall hhas item hitem
    rw [hend]
    exact ⟨hoffset, by omega, hhigh⟩
  · obtain ⟨-, hweight⟩ := cs.entries_between hsmall hhas item hitem
    obtain ⟨hw, hlow, hhigh⟩ := hweight w hw
    exact ⟨hw, by omega, hhigh⟩

end

section

variable {p : Program} {bodies : List Body} {lib : Option Registry}

mutual

theorem Code.spans : ∀ (c : Code) {s : Reach} {base : Nat}, s.In p bodies →
    p.Has base (c.lines base) → c.Sound lib s base →
    Spans p bodies s.arity base (base + c.size) (c.lines base)
      ((c.definitions base).map Definition.region)
  | .nil, s, base, _, _, _ => ⟨.plain trivial trivial, rfl⟩
  | .act operands a next, s, base, hs, hhas, hsound => by
    obtain ⟨hoperands, hact, hnext⟩ := Code.has_act hhas
    rw [Code.Sound] at hsound
    rw [Code.lines, Code.definitions, List.map_append, Code.size, ← Nat.add_assoc, ← Nat.add_assoc]
    exact ((operands.spans hs hoperands hsound.1).plain (Act.lies hs hact hsound.2.2.1) rfl).append
      (next.spans hs hnext hsound.2.2.2)
  | .ifThen operands test yes next, s, base, hs, hhas, hsound => by
    obtain ⟨hoperands, -, hyes, hnext⟩ := Code.has_ifThen hhas
    rw [Code.Sound] at hsound
    simp only [Code.lines, Code.definitions, List.map_append, Code.size, ← Nat.add_assoc]
    have htest : Lies p bodies s.arity (base + operands.size) _ [] :=
      test.lies hs hyes hnext (by omega) (by omega)
    have hfirst := (operands.spans hs hoperands hsound.1).plain htest (congrArg _ (test.sizes_choice _ _))
    exact (hfirst.append (yes.spans hs hyes hsound.2.2.1)).append (next.spans hs hnext hsound.2.2.2)
  | .ifElse operands test yes no next, s, base, hs, hhas, hsound => by
    obtain ⟨hoperands, -, hyes, -, hno, hnext⟩ := Code.has_ifElse hhas
    rw [Code.Sound] at hsound
    simp only [Code.lines, Code.definitions, List.map_append, Code.size, ← Nat.add_assoc]
    have htest : Lies p bodies s.arity (base + operands.size) _ [] :=
      test.lies hs hyes hno (by omega) (by omega)
    have hjump : Lies p bodies s.arity (base + operands.size + 11 + yes.size) _ [] :=
      hs.lies_jump hnext (by omega)
    have hfirst := (operands.spans hs hoperands hsound.1).plain htest (congrArg _ (test.sizes_choice _ _))
    have hsecond := (hfirst.append (yes.spans hs hyes hsound.2.2.1)).plain hjump rfl
    exact (hsecond.append (no.spans hs hno hsound.2.2.2.1)).append (next.spans hs hnext hsound.2.2.2.2)
  | .block index choices next, s, base, hs, hhas, hsound => by
    obtain ⟨hblock, hchoices, hnext⟩ := Code.has_block hhas
    rw [Code.Sound] at hsound
    obtain ⟨⟨hindex, hne, htable⟩, hsoundChoices, hsoundNext⟩ := hsound
    rw [Code.lines, Code.definitions, List.map_append, Code.size, ← Nat.add_assoc, ← Nat.add_assoc]
    have hlt := hs.lt hblock
    rw [hs.tables] at htable
    have hfirst : Lies p bodies s.arity base [.plain (.block (Int32.ofNat index))] [] :=
      .plain ⟨⟨_, (Program.lookup?_ofNat _ (by omega)).trans htable,
        Choices.block_lies hs.small hchoices hnext hne⟩, trivial⟩ ⟨trivial, trivial⟩
    exact (Spans.append ⟨hfirst, rfl⟩ (choices.spans hs hchoices hsoundChoices)).append
      (next.spans hs hnext hsoundNext)
  | .define arity body next, s, base, hs, hhas, hsound => by
    obtain ⟨hjump, hbody, hnext⟩ := Code.has_define hhas
    rw [Code.Sound] at hsound
    rw [Code.lines, Code.definitions, List.map_append, Code.size, ← Nat.add_assoc, ← Nat.add_assoc,
      ← Nat.add_assoc]
    have hinner := (body.spans (hs.withArity arity) hbody.left hsound.1).lies
    have hreturn := hbody.right
    rw [Code.sizes_lines] at hreturn
    have hregion : p.HasBody ⟨base + 5, base + 5 + Line.sizes (body.lines (base + 5)) + 1, arity⟩ := by
      rw [Code.sizes_lines]
      exact ⟨hbody.boundary, ⟨base, rfl, hjump.mem_placed_plain⟩,
        ⟨_, rfl, hreturn.mem_placed_plain⟩⟩
    have hdefine := hinner.define (k := s.arity) (hs.refers_jump rfl hnext (by omega)) hregion
    refine Spans.append ⟨?_, ?_⟩ (next.spans hs hnext hsound.2)
    · rw [Code.sizes_lines] at hdefine
      exact hdefine
    · rw [List.cons_append, Line.sizes_cons, Line.sizes_append, Code.sizes_lines, ← Nat.add_assoc,
        ← Nat.add_assoc]
      rfl
  | .call operands address count next, s, base, hs, hhas, hsound => by
    obtain ⟨hoperands, -, hnext⟩ := Code.has_call hhas
    rw [Code.Sound] at hsound
    rw [Code.lines, Code.definitions, List.map_append, Code.size, ← Nat.add_assoc, ← Nat.add_assoc]
    obtain ⟨hlt, b, hb, hstart, harity⟩ := hs.known _ _ hsound.2.2.1
    have hcall : Lies p bodies s.arity (base + operands.size)
        [.plain (.call (Int32.ofNat address) count)] [] :=
      .plain ⟨⟨b, hb, by rw [hstart, Int32.toInt_ofNat_of_lt hlt], harity⟩, trivial⟩
        ⟨trivial, trivial⟩
    exact ((operands.spans hs hoperands hsound.1).plain hcall rfl).append
      (next.spans hs hnext hsound.2.2.2)
  | .native operands id count next, s, base, hs, hhas, hsound => by
    obtain ⟨hoperands, -, hnext⟩ := Code.has_native hhas
    rw [Code.Sound] at hsound
    rw [Code.lines, Code.definitions, List.map_append, Code.size, ← Nat.add_assoc, ← Nat.add_assoc]
    have hcall : Lies p bodies s.arity (base + operands.size) [.plain (.nativeCall id count)] [] :=
      .plain ⟨by rintro address ⟨⟩, trivial⟩ ⟨trivial, trivial⟩
    exact ((operands.spans hs hoperands hsound.1).plain hcall rfl).append (next.spans hs hnext hsound.2.2)
  | .program index target code next, s, base, hs, hhas, hsound => by
    obtain ⟨-, hnext⟩ := Code.has_program hhas
    rw [Code.Sound] at hsound
    obtain ⟨⟨hindex, htarget⟩, -, hsoundNext⟩ := hsound
    rw [Code.lines, Code.definitions, Code.size, ← Nat.add_assoc]
    have hreference : (p.reference? index.toUInt16).isSome := by
      have hlist : p.references[index]? = some target := by
        simpa [hs.tables, Program.tables] using htarget
      have hnumber : index.toUInt16.toNat = index := Nat.mod_eq_of_lt hindex
      rw [Program.reference?, hnumber, hlist]
      rfl
    have hcall : Lies p bodies s.arity base [.plain (.callProgram index.toUInt16)] [] :=
      .plain ⟨hreference, trivial⟩ ⟨trivial, trivial⟩
    exact Spans.append ⟨hcall, rfl⟩ (next.spans hs hnext hsoundNext)

theorem Operands.spans : ∀ (c : Operands) {s : Reach} {base : Nat}, s.In p bodies →
    p.Has base (c.lines base) → c.Sound lib s base →
    Spans p bodies s.arity base (base + c.size) (c.lines base)
      ((c.definitions base).map Definition.region)
  | .nil, s, base, _, _, _ => ⟨.plain trivial trivial, rfl⟩
  | .constant c next, s, base, hs, hhas, hsound => by
    obtain ⟨-, hnext⟩ := Operands.has_constant hhas
    rw [Operands.Sound] at hsound
    rw [Operands.lines, Operands.definitions, Operands.size, ← Nat.add_assoc]
    exact Spans.append ⟨Constant.lies, rfl⟩ (next.spans hs hnext hsound)
  | .capture numeric body next, s, base, hs, hhas, hsound => by
    obtain ⟨-, hbody, -, hnext⟩ := Operands.has_capture hhas
    rw [Operands.Sound] at hsound
    simp only [Operands.lines, Operands.definitions, List.map_append, Operands.size, ← Nat.add_assoc]
    have hopen : Lies p bodies s.arity base [.plain .newOutput] [] :=
      .plain ⟨by rintro address ⟨⟩, trivial⟩ ⟨trivial, trivial⟩
    have hfirst := (Spans.append ⟨hopen, rfl⟩ (body.spans hs hbody hsound.1)).plain
      (lies_captureEnd numeric) rfl
    exact hfirst.append (next.spans hs hnext hsound.2)
  | .pointer body next, s, base, hs, hhas, hsound => by
    obtain ⟨hjump, hbody, hpush, hnext⟩ := Operands.has_pointer hhas
    rw [Operands.Sound] at hsound
    simp only [Operands.lines, Operands.definitions, List.map_append, Operands.size, ← Nat.add_assoc]
    have hopen : Lies p bodies s.arity base _ [] := hs.lies_jump hpush (by omega)
    have haddress : (Int32.ofNat (base + 5)).toInt = (base + 5 : Nat) :=
      Int32.toInt_ofNat_of_lt (hs.lt hbody)
    have hclose : Lies p bodies s.arity (base + 5 + body.size)
        [.plain .return, .plain (.pushAddress (Int32.ofNat (base + 5)))] [] := by
      refine .plain ⟨by rintro address ⟨⟩, ?_, trivial⟩ ⟨trivial, trivial, trivial⟩
      change 0 ≤ (Int32.ofNat (base + 5)).toInt ∧ p.Boundary (Int32.ofNat (base + 5)).toInt.toNat
      rw [haddress, Int.toNat_natCast]
      exact ⟨Int.natCast_nonneg _, hbody.boundary⟩
    have hfirst := (Spans.append ⟨hopen, rfl⟩ (body.spans hs hbody.left hsound.1)).plain hclose rfl
    exact hfirst.append (next.spans hs hnext hsound.2)

theorem Choices.spans : ∀ (c : Choices) {s : Reach} {base : Nat}, s.In p bodies →
    p.Has base (c.lines base) → c.Sound lib s base →
    Spans p bodies s.arity base (base + c.size) (c.lines base)
      ((c.definitions base).map Definition.region)
  | .nil, s, base, _, _, _ => ⟨.plain trivial trivial, rfl⟩
  | .item weight body next, s, base, hs, hhas, hsound => by
    obtain ⟨hbody, hnext⟩ := Choices.has_item hhas
    rw [Choices.Sound] at hsound
    simp only [Choices.lines, Choices.definitions, List.map_append, Choices.size, ← Nat.add_assoc]
    have hend : Lies p bodies s.arity (base + body.size) [.plain .blockEnd] [] :=
      .plain ⟨by rintro address ⟨⟩, trivial⟩ ⟨trivial, trivial⟩
    exact ((body.spans hs hbody.left hsound.1).plain hend rfl).append (next.spans hs hnext hsound.2)
  | .weighted weight body next, s, base, hs, hhas, hsound => by
    obtain ⟨-, hweight, hbody, hnext⟩ := Choices.has_weighted hhas
    rw [Choices.Sound] at hsound
    simp only [Choices.lines, Choices.definitions, List.map_append, Choices.size, ← Nat.add_assoc]
    have hopen : Lies p bodies s.arity base [.plain .newOutput] [] :=
      .plain ⟨by rintro address ⟨⟩, trivial⟩ ⟨trivial, trivial⟩
    have hclose : Lies p bodies s.arity (base + 1 + weight.size)
        [.plain .returnOutput, .plain .return] [] :=
      .plain ⟨by rintro address ⟨⟩, by rintro address ⟨⟩, trivial⟩ ⟨trivial, trivial, trivial⟩
    have hend : Lies p bodies s.arity (base + 1 + weight.size + 2 + body.size)
        [.plain .blockEnd] [] := .plain ⟨by rintro address ⟨⟩, trivial⟩ ⟨trivial, trivial⟩
    have hfirst := (Spans.append ⟨hopen, rfl⟩ (weight.spans hs hweight.left hsound.1)).plain hclose rfl
    have hsecond := (hfirst.append (body.spans hs hbody.left hsound.2.1)).plain hend rfl
    exact hsecond.append (next.spans hs hnext hsound.2.2)

end

theorem Code.knows_in {code : Code} (h : (⟨p, code, [], false⟩ : Activation).Loaded lib) :
    (⟨p.tables, code.Knows, 0⟩ : Reach).In p ((code.definitions 0).map Definition.region) where
  tables := rfl
  known := by
    rintro address arity ⟨d, hd, rfl, rfl⟩
    have hle : _ ≤ p.code.size := (code.definitions_within h.reads.has h.sound d hd).has.le_size
    have hsmall : p.code.size < 2 ^ 31 := h.small
    exact ⟨by omega, d.region, List.mem_map_of_mem hd, rfl, rfl⟩
  small := h.small

end

/-! ## Compiled programs -/

theorem Instr.refers_of_line {p : Program} {bodies : List Body} {n : Nat} {i : Instr} {l : Line}
    (hi : Line.ofInstr? p.strings i = some l) (h : l.Refers p bodies n) : i.Refers p bodies n := by
  cases l with
  | plain j =>
    rw [Line.eq_of_ofInstr?_plain hi]
    exact h
  | text use s =>
    obtain ⟨m, rfl, hm⟩ := Line.eq_instr_of_ofInstr?_text hi
    cases use <;> exact Option.isSome_of_eq_some hm

/-- Sound code by which every block is entered makes a well-formed program. -/
theorem Compile.Consists.wellFormed {lib : Option Registry} {p : Program} {code : Code}
    (h : Consists lib p code) : p.WellFormed := by
  have hreads := h.loaded.reads
  have hsmall : p.code.size < 2 ^ 31 := h.loaded.small
  have hlies := (code.spans (Code.knows_in h.loaded) hreads.has h.loaded.sound).lies
  obtain ⟨is, hcode, hlines⟩ := id hreads
  have hplaced := Program.placed_of_flatten hcode
  have hrefers : ∀ n i, (n, i) ∈ p.placed →
      i.Refers p ((code.definitions 0).map Definition.region) n := by
    intro n i hi
    rw [hplaced] at hi
    obtain ⟨l, hl, hline⟩ := hlies.refers.placed hlines hi
    exact Instr.refers_of_line hl hline
  refine ⟨⟨is, hcode, Instr.decodeAll_flatten hcode⟩, fun index b hb => ?_, h.filters, _,
    hlies.sorted, hlies.has, hrefers, fun n index hindex => ?_⟩
  · have hlt := (Array.getElem?_eq_some_iff.1 hb).1
    have hsize := h.size
    obtain ⟨before, after, hsplit⟩ := List.append_of_mem (h.blocks index hlt)
    rw [hsplit] at hreads
    have hhas : p.Has (Line.sizes before) (.plain (.block (Int32.ofNat index)) :: after) :=
      ⟨before, [], by rwa [List.append_nil], rfl⟩
    obtain ⟨b', hb', hlies⟩ := hrefers _ _ hhas.mem_placed_plain
    rw [Program.block?, Program.lookup?_ofNat _ (by omega), hb] at hb'
    cases hb'
    exact ⟨_, hhas.mem_placed_plain, hlies⟩
  · rw [hplaced] at hindex
    obtain ⟨l, hl, hargued⟩ := hlies.argued.placed hlines hindex
    cases hl
    obtain hinner | ⟨-, hnone⟩ := hargued
    · exact hinner
    · exact absurd hnone (Nat.not_lt_zero _)

/-- **Compiled programs are well formed.** This holds for every source that compiles, with or without
marks of source positions, whatever functions there are and whatever programs are imported, be they
well formed or not. Sources have at most `2 ^ 31` characters: an operand can tell that many strings
apart, and while a program is built it may have one for each character. -/
theorem Compile.compile_wellFormed {ctx : Context} {name source : String} {p : Program}
    (h : compile ctx name source = .ok p) (hsource : source.length ≤ 2 ^ 31) : p.WellFormed := by
  have hok : ctx.Ok none := ⟨fun _ _ _ => by nofun, by nofun, by nofun, by nofun⟩
  obtain ⟨code, hcode⟩ := consists_of_compile hok h hsource
  exact hcode.wellFormed

/-- A subroutine inside another, weights of both kinds, a comparison and a query with a filter. -/
theorem Compile.compile_wellFormed_sample :
    ∃ p, compile ⟨true, Standard.registry, {}⟩ "main"
      "[$[f:a]:[$[g:b;c]:[arg:c]]{*2*[arg:a]|*[arg:a]*[$g:x;y]}][eq:1;2;[$f:3];<::=x?//^a//>]" =
        .ok p ∧ p.WellFormed := by
  have hcompiles : (compile ⟨true, Standard.registry, {}⟩ "main"
      "[$[f:a]:[$[g:b;c]:[arg:c]]{*2*[arg:a]|*[arg:a]*[$g:x;y]}][eq:1;2;[$f:3];<::=x?//^a//>]"
      ).toOption.isSome := by
    decide +kernel
  obtain ⟨p, hp⟩ := Option.isSome_iff_exists.1 hcompiles
  have hp := toOption_eq_some.1 hp
  exact ⟨p, hp, compile_wellFormed hp (by decide)⟩

end Wordloom
