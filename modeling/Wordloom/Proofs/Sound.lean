import Wordloom.Machine.Standard
import Wordloom.Proofs.Frames

/-!
# Wordloom.Proofs.Sound

Trees whose references all lead somewhere: operands are as many as are taken, blocks have their entry
in the table, calls go to subroutines with so many parameters, functions are registered, and imported
programs are trees of the same kind.
-/

namespace Wordloom

/-! ## Functions -/

/-- A function that is given these addresses goes wrong in no other way than is expected. -/
def Routine.Safe (addresses : List Nat) : Routine → Prop
  | .done => True
  | .fail fault => fault.Expected
  | .print _ next | .edit _ next | .setRepeat _ next | .setSeparator _ next
  | .setNumberFormat _ next | .setRng _ next => next.Safe addresses
  | .textOf _ next => ∀ text, (next text).Safe addresses
  | .getRng next => ∀ rng, (next rng).Safe addresses
  | .getPool _ next => ∀ pool, (next pool).Safe addresses
  | .evaluate address next => address ∈ addresses ∧ (next .undefined).Safe addresses

/-- As many values as there are parameters, with an address for each that is a pattern. -/
def ParamKind.Match (addresses : List Nat) : List ParamKind → List Value → Prop
  | [], [] => True
  | .pattern :: kinds, .pointer n :: values => n ∈ addresses ∧ Match addresses kinds values
  | .text :: kinds, _ :: values | .number :: kinds, _ :: values => Match addresses kinds values
  | _, _ => False

def Function.Sound (f : Function) : Prop :=
  ∀ addresses values, ParamKind.Match addresses f.params values →
    (f.routine values).Safe addresses

def Registry.Sound (r : Registry) : Prop := ∀ id f, r.get? id = some f → f.Sound

namespace Standard

variable {addresses : List Nat} {name : String}

/-- A routine with a number is safe if it is with every number. -/
theorem safe_withNumber {function : String} {v : Value} {next : Float → Routine}
    (h : ∀ n, (next n).Safe addresses) : (withNumber function v next).Safe addresses := by
  unfold withNumber
  split
  · split
    · exact h _
    · trivial
  · trivial

/-- A routine with a mode is safe if it is with every mode. -/
theorem safe_withMode {function : String} {ofName? : String → Option α} {next : α → Routine}
    (h : ∀ mode, (next mode).Safe addresses) :
    (withMode function ofName? name next).Safe addresses := by
  unfold withMode
  split
  · exact h _
  · trivial

/-- A function of one text or number is sound. -/
theorem sound_unary {kind : ParamKind} {f : Value → Routine} (hkind : kind ≠ .pattern)
    (h : ∀ addresses v, (f v).Safe addresses) : Function.Sound ⟨name, [kind], unary f⟩ := by
  intro addresses values hvalues
  match kind, values with
  | .text, [v] | .number, [v] => exact h addresses v
  | .pattern, _ => exact absurd rfl hkind

/-- A function of two texts or numbers is sound. -/
theorem sound_binary {first second : ParamKind} {f : Value → Value → Routine}
    (hfirst : first ≠ .pattern) (hsecond : second ≠ .pattern)
    (h : ∀ addresses u v, (f u v).Safe addresses) :
    Function.Sound ⟨name, [first, second], binary f⟩ := by
  intro addresses values hvalues
  match first, second, values with
  | .text, .text, [u, v] | .text, .number, [u, v] | .number, .text, [u, v]
  | .number, .number, [u, v] => exact h addresses u v
  | .pattern, _, _ => exact absurd rfl hfirst
  | _, .pattern, _ => exact absurd rfl hsecond

/-- A pool evaluates nothing but its third argument, a pattern. -/
theorem sound_pool : Function.Sound ⟨"pool", [.text, .text, .pattern], pool⟩ := by
  intro addresses values hvalues
  match values, hvalues with
  | [name, key, .pointer n], hvalues => exact fun _ _ _ _ => ⟨hvalues.1, trivial⟩

/-- Every standard function is sound. -/
theorem sound_registry : registry.Sound := by
  intro id f hf
  have hmem : f ∈ functions := by
    have hlist : functions[id]? = some f := by simpa [registry, Registry.get?] using hf
    exact List.mem_of_getElem? hlist
  simp only [functions, List.mem_cons, List.not_mem_nil, or_false] at hmem
  obtain rfl | rfl | rfl | rfl | rfl | rfl | rfl | rfl | rfl | rfl | rfl | rfl := hmem
  · exact sound_unary (by decide) fun _ _ => safe_withNumber fun _ => trivial
  · exact sound_unary (by decide) fun _ _ _ => trivial
  · exact sound_unary (by decide) fun _ _ _ => safe_withMode fun _ => trivial
  · exact sound_binary (by decide) (by decide) fun _ _ _ => safe_withNumber fun _ =>
      safe_withNumber fun _ _ _ => trivial
  · exact sound_pool
  · exact sound_unary (by decide) fun _ _ _ => trivial
  · exact sound_binary (by decide) (by decide) fun _ _ _ _ _ => trivial
  · exact sound_binary (by decide) (by decide) fun _ _ _ _ _ => trivial
  · exact sound_unary (by decide) fun _ _ _ => trivial
  · exact sound_unary (by decide) fun _ _ _ _ => trivial
  · exact sound_unary (by decide) fun _ _ _ => safe_withMode fun _ => trivial
  · exact sound_unary (by decide) fun _ _ _ => trivial

end Standard

/-! ## Trees -/

/-- What the code of a subroutine, or of a program outside of any, may refer to. -/
structure Reach where
  tables : Tables
  /-- whether a subroutine with so many parameters starts at the address -/
  known : (address arity : Nat) → Prop
  arity : Nat

/-- The subroutines of a program. -/
def Code.Knows (code : Code) (address arity : Nat) : Prop :=
  ∃ d ∈ code.definitions 0, d.address = address ∧ d.arity = arity

/-- Every address can be written down. -/
def Program.Small (p : Program) : Prop := p.code.size < 2 ^ 31

def Operands.length : Operands → Nat
  | .nil => 0
  | .constant _ next | .capture _ _ next | .pointer _ next => next.length + 1

/-- Operands for the parameters of a function. -/
def Operands.Provides : List ParamKind → Operands → Prop
  | [], .nil => True
  | .pattern :: kinds, .pointer _ next => next.Provides kinds
  | .text :: kinds, .constant _ next | .number :: kinds, .constant _ next
  | .text :: kinds, .capture _ _ next | .number :: kinds, .capture _ _ next => next.Provides kinds
  | _, _ => False

mutual

/-- All that code at `base` refers to is there. Where a library is given, functions are among those of
the library, and programs that are run consist of such code as well. -/
def Code.Sound (lib : Option Registry) (s : Reach) (base : Nat) : Code → Prop
  | .nil => True
  | .act operands a next =>
    operands.Sound lib s base ∧ operands.length = a.arity ∧
      a.Sound s.tables s.arity (base + operands.size) ∧
      next.Sound lib s (base + operands.size + Line.sizes a.lines)
  | .ifThen operands _ yes next =>
    operands.Sound lib s base ∧ operands.length = 2 ∧ yes.Sound lib s (base + operands.size + 11) ∧
      next.Sound lib s (base + operands.size + 11 + yes.size)
  | .ifElse operands _ yes no next =>
    operands.Sound lib s base ∧ operands.length = 2 ∧ yes.Sound lib s (base + operands.size + 11) ∧
      no.Sound lib s (base + operands.size + 11 + yes.size + 5) ∧
      next.Sound lib s (base + operands.size + 11 + yes.size + 5 + no.size)
  | .block index choices next =>
    (index ≤ base ∧ choices.entries (base + 5) ≠ [] ∧
      s.tables.blocks[index]? =
        some ⟨(base + 5 + choices.size).toUInt32, choices.entries (base + 5)⟩) ∧
      choices.Sound lib s (base + 5) ∧ next.Sound lib s (base + 5 + choices.size)
  | .define arity body next =>
    body.Sound lib { s with arity := arity } (base + 5) ∧ next.Sound lib s (base + 5 + body.size + 1)
  | .call operands address count next =>
    operands.Sound lib s base ∧ operands.length = count.toNat ∧ s.known address count.toNat ∧
      next.Sound lib s (base + operands.size + 6)
  | .native operands id count next =>
    operands.Sound lib s base ∧
      (∀ r ∈ lib, operands.length = count.toNat ∧
        ∃ f, r.get? id.toNat = some f ∧ operands.Provides f.params) ∧
      next.Sound lib s (base + operands.size + 4)
  | .program index target code next =>
    (index < 2 ^ 16 ∧ s.tables.references[index]? = some target) ∧
      (lib.isSome → target.Reads (code.lines 0) ∧ target.Small ∧
        code.Sound lib ⟨target.tables, code.Knows, 0⟩ 0) ∧ next.Sound lib s (base + 3)

def Operands.Sound (lib : Option Registry) (s : Reach) (base : Nat) : Operands → Prop
  | .nil => True
  | .constant c next => next.Sound lib s (base + Line.sizes c.lines)
  | .capture numeric body next =>
    body.Sound lib s (base + 1) ∧
      next.Sound lib s (base + 1 + body.size + Line.sizes (captureEnd numeric))
  | .pointer body next => body.Sound lib s (base + 5) ∧ next.Sound lib s (base + 5 + body.size + 6)

def Choices.Sound (lib : Option Registry) (s : Reach) (base : Nat) : Choices → Prop
  | .nil => True
  | .item _ body next => body.Sound lib s base ∧ next.Sound lib s (base + body.size + 1)
  | .weighted weight body next =>
    weight.Sound lib s (base + 1) ∧ body.Sound lib s (base + 1 + weight.size + 2) ∧
      next.Sound lib s (base + 1 + weight.size + 2 + body.size + 1)

end

/-! ### More to refer to -/

/-- Tables with more in them. A block without items is one that is not complete yet. -/
structure Tables.Le (t t' : Tables) : Prop where
  blocks : ∀ (i : Nat) (b : Block), b.items ≠ [] → t.blocks[i]? = some b → t'.blocks[i]? = some b
  queries : t.queries.size ≤ t'.queries.size
  references : ∀ (i : Nat) (p : Program), t.references[i]? = some p → t'.references[i]? = some p

theorem Tables.Le.refl (t : Tables) : t.Le t := ⟨fun _ _ _ h => h, Nat.le_refl _, fun _ _ h => h⟩

/-- There is more to refer to, from the same kind of place. -/
structure Reach.Le (s s' : Reach) : Prop where
  tables : s.tables.Le s'.tables
  known : ∀ address arity, s.known address arity → s'.known address arity
  arity : s.arity = s'.arity

theorem Reach.Le.withArity {s s' : Reach} (h : s.Le s') (n : Nat) :
    ({ s with arity := n } : Reach).Le { s' with arity := n } := ⟨h.tables, h.known, rfl⟩

/-- What is sound stays so in larger tables. -/
theorem Act.Sound.mono {t t' : Tables} (h : t.Le t') {arity offset : Nat} {a : Act}
    (ha : a.Sound t arity offset) : a.Sound t' arity offset := by
  cases a with
  | query index => exact ⟨ha.1, Nat.lt_of_lt_of_le ha.2 h.queries⟩
  | _ => exact ha

variable {lib : Option Registry}

mutual

/-- Code that is sound stays so when more can be reached. -/
theorem Code.Sound.mono : ∀ {c : Code} {s s' : Reach} {base : Nat}, s.Le s' →
    c.Sound lib s base → c.Sound lib s' base
  | .nil, _, _, _, _, _ => by rw [Code.Sound]; trivial
  | .act operands a next, s, s', base, hs, h => by
    rw [Code.Sound] at h ⊢
    rw [← hs.arity]
    exact ⟨h.1.mono hs, h.2.1, h.2.2.1.mono hs.tables, h.2.2.2.mono hs⟩
  | .ifThen operands test yes next, s, s', base, hs, h => by
    rw [Code.Sound] at h ⊢
    exact ⟨h.1.mono hs, h.2.1, h.2.2.1.mono hs, h.2.2.2.mono hs⟩
  | .ifElse operands test yes no next, s, s', base, hs, h => by
    rw [Code.Sound] at h ⊢
    exact ⟨h.1.mono hs, h.2.1, h.2.2.1.mono hs, h.2.2.2.1.mono hs, h.2.2.2.2.mono hs⟩
  | .block index choices next, s, s', base, hs, h => by
    rw [Code.Sound] at h ⊢
    obtain ⟨⟨hindex, hne, htable⟩, hchoices, hnext⟩ := h
    exact ⟨⟨hindex, hne, hs.tables.blocks _ _ hne htable⟩, hchoices.mono hs, hnext.mono hs⟩
  | .define arity body next, s, s', base, hs, h => by
    rw [Code.Sound] at h ⊢
    exact ⟨h.1.mono (hs.withArity arity), h.2.mono hs⟩
  | .call operands address count next, s, s', base, hs, h => by
    rw [Code.Sound] at h ⊢
    exact ⟨h.1.mono hs, h.2.1, hs.known _ _ h.2.2.1, h.2.2.2.mono hs⟩
  | .native operands id count next, s, s', base, hs, h => by
    rw [Code.Sound] at h ⊢
    exact ⟨h.1.mono hs, h.2.1, h.2.2.mono hs⟩
  | .program index target code next, s, s', base, hs, h => by
    rw [Code.Sound] at h ⊢
    obtain ⟨⟨hindex, htarget⟩, hcode, hnext⟩ := h
    exact ⟨⟨hindex, hs.tables.references _ _ htarget⟩, hcode, hnext.mono hs⟩

theorem Operands.Sound.mono : ∀ {c : Operands} {s s' : Reach} {base : Nat},
    s.Le s' → c.Sound lib s base → c.Sound lib s' base
  | .nil, _, _, _, _, _ => by rw [Operands.Sound]; trivial
  | .constant c next, s, s', base, hs, h => by
    rw [Operands.Sound] at h ⊢
    exact h.mono hs
  | .capture _ _ _, s, s', base, hs, h | .pointer _ _, s, s', base, hs, h => by
    rw [Operands.Sound] at h ⊢
    exact ⟨h.1.mono hs, h.2.mono hs⟩

theorem Choices.Sound.mono : ∀ {c : Choices} {s s' : Reach} {base : Nat},
    s.Le s' → c.Sound lib s base → c.Sound lib s' base
  | .nil, _, _, _, _, _ => by rw [Choices.Sound]; trivial
  | .item weight body next, s, s', base, hs, h => by
    rw [Choices.Sound] at h ⊢
    exact ⟨h.1.mono hs, h.2.mono hs⟩
  | .weighted weight body next, s, s', base, hs, h => by
    rw [Choices.Sound] at h ⊢
    exact ⟨h.1.mono hs, h.2.1.mono hs, h.2.2.mono hs⟩

end

/-! ### Lists put together -/

/-- Code is sound if both of its parts are, each at its place. -/
theorem Code.sound_append {s : Reach} : ∀ {c d : Code} {base : Nat},
    (c.append d).Sound lib s base ↔ c.Sound lib s base ∧ d.Sound lib s (base + c.size)
  | .nil, d, base => by simp [Code.append, Code.Sound, Code.size]
  | .act _ _ next, d, base | .ifThen _ _ _ next, d, base | .ifElse _ _ _ _ next, d, base
  | .block _ _ next, d, base | .define _ _ next, d, base | .call _ _ _ next, d, base
  | .native _ _ _ next, d, base | .program _ _ _ next, d, base => by
    simp only [Code.append, Code.Sound, Code.size, Code.sound_append (c := next), and_assoc,
      Nat.add_assoc]

theorem Operands.sound_append {s : Reach} : ∀ {c d : Operands} {base : Nat},
    (c.append d).Sound lib s base ↔ c.Sound lib s base ∧ d.Sound lib s (base + c.size)
  | .nil, d, base => by simp [Operands.append, Operands.Sound, Operands.size]
  | .constant _ next, d, base | .capture _ _ next, d, base | .pointer _ next, d, base => by
    simp only [Operands.append, Operands.Sound, Operands.size,
      Operands.sound_append (c := next), and_assoc, Nat.add_assoc]

theorem Choices.sound_append {s : Reach} : ∀ {c d : Choices} {base : Nat},
    (c.append d).Sound lib s base ↔ c.Sound lib s base ∧ d.Sound lib s (base + c.size)
  | .nil, d, base => by simp [Choices.append, Choices.Sound, Choices.size]
  | .item _ _ next, d, base | .weighted _ _ next, d, base => by
    simp only [Choices.append, Choices.Sound, Choices.size, Choices.sound_append (c := next),
      and_assoc, Nat.add_assoc]

@[simp] theorem Operands.length_append : ∀ c d : Operands,
    (c.append d).length = c.length + d.length
  | .nil, d => by rw [Operands.append, Operands.length, Nat.zero_add]
  | .constant _ next, d | .capture _ _ next, d | .pointer _ next, d => by
    have ih := Operands.length_append next d
    simp only [Operands.append, Operands.length, ih]
    omega

/-! ### The instructions of a tree in a program -/

section

variable {p : Program} {base : Nat} {body next : Code} {operands : Operands}

/-- Lines in a row are a row of lines and the lines behind them. -/
theorem Program.Has.split {offset n : Nat} {ls ms : List Line} (h : p.Has offset (ls ++ ms))
    (hn : offset + Line.sizes ls = n) : p.Has offset ls ∧ p.Has n ms := by
  subst hn
  exact ⟨h.left, h.right⟩

/-- The code of an act: its operands, its instructions, what is next. -/
theorem Code.has_act {a : Act} (h : p.Has base ((Code.act operands a next).lines base)) :
    p.Has base (operands.lines base) ∧ p.Has (base + operands.size) a.lines ∧
      p.Has (base + operands.size + Line.sizes a.lines)
        (next.lines (base + operands.size + Line.sizes a.lines)) := by
  rw [Code.lines, List.append_assoc] at h
  obtain ⟨hoperands, h⟩ := h.split (by rw [Operands.sizes_lines])
  obtain ⟨hact, hnext⟩ := h.split rfl
  exact ⟨hoperands, hact, hnext⟩

theorem Test.sizes_choice (test : Test) (i j : Int32) :
    Line.sizes [.plain .compare, .plain (test.jump i), .plain (.jump j)] = 11 := by
  simp only [Line.sizes_cons, Line.sizes_nil, Line.size, Test.size_jump]
  rfl

/-- The code of a branch: the comparison, the body, what is next. -/
theorem Code.has_ifThen {test : Test} {yes : Code}
    (h : p.Has base ((Code.ifThen operands test yes next).lines base)) :
    p.Has base (operands.lines base) ∧
      p.Has (base + operands.size)
        [.plain .compare, .plain (test.jump (Int32.ofNat (base + operands.size + 11))),
          .plain (.jump (Int32.ofNat (base + operands.size + 11 + yes.size)))] ∧
      p.Has (base + operands.size + 11) (yes.lines (base + operands.size + 11)) ∧
      p.Has (base + operands.size + 11 + yes.size)
        (next.lines (base + operands.size + 11 + yes.size)) := by
  rw [Code.lines, List.append_assoc, List.append_assoc] at h
  obtain ⟨hoperands, h⟩ := h.split (by rw [Operands.sizes_lines])
  obtain ⟨hjumps, h⟩ := h.split (by rw [Test.sizes_choice])
  obtain ⟨hyes, hnext⟩ := h.split (by rw [Code.sizes_lines])
  exact ⟨hoperands, hjumps, hyes, hnext⟩

/-- The code of a branch with two bodies: the first ends in a jump over the second. -/
theorem Code.has_ifElse {test : Test} {yes no : Code}
    (h : p.Has base ((Code.ifElse operands test yes no next).lines base)) :
    p.Has base (operands.lines base) ∧
      p.Has (base + operands.size)
        [.plain .compare, .plain (test.jump (Int32.ofNat (base + operands.size + 11))),
          .plain (.jump (Int32.ofNat (base + operands.size + 11 + yes.size + 5)))] ∧
      p.Has (base + operands.size + 11) (yes.lines (base + operands.size + 11)) ∧
      p.Has (base + operands.size + 11 + yes.size)
        [.plain (.jump (Int32.ofNat (base + operands.size + 11 + yes.size + 5 + no.size)))] ∧
      p.Has (base + operands.size + 11 + yes.size + 5)
        (no.lines (base + operands.size + 11 + yes.size + 5)) ∧
      p.Has (base + operands.size + 11 + yes.size + 5 + no.size)
        (next.lines (base + operands.size + 11 + yes.size + 5 + no.size)) := by
  rw [Code.lines] at h
  simp only [List.append_assoc] at h
  obtain ⟨hoperands, h⟩ := h.split (by rw [Operands.sizes_lines])
  obtain ⟨hjumps, h⟩ := h.split (by rw [Test.sizes_choice])
  obtain ⟨hyes, h⟩ := h.split (by rw [Code.sizes_lines])
  obtain ⟨hjump, h⟩ := h.split rfl
  obtain ⟨hno, hnext⟩ := h.split (by rw [Code.sizes_lines])
  exact ⟨hoperands, hjumps, hyes, hjump, hno, hnext⟩

/-- The code of a block: its items stand behind its instruction. -/
theorem Code.has_block {index : Nat} {choices : Choices}
    (h : p.Has base ((Code.block index choices next).lines base)) :
    p.Has base [.plain (.block (Int32.ofNat index))] ∧
      p.Has (base + 5) (choices.lines (base + 5)) ∧
      p.Has (base + 5 + choices.size) (next.lines (base + 5 + choices.size)) := by
  rw [Code.lines, ← List.singleton_append, List.append_assoc] at h
  obtain ⟨hblock, h⟩ := h.split rfl
  obtain ⟨hchoices, hnext⟩ := h.split (by rw [Choices.sizes_lines])
  exact ⟨hblock, hchoices, hnext⟩

/-- The code of a definition: a jump over the body, which returns. -/
theorem Code.has_define {arity : Nat} (h : p.Has base ((Code.define arity body next).lines base)) :
    p.Has base [.plain (.jump (Int32.ofNat (base + 5 + body.size + 1)))] ∧
      p.Has (base + 5) (body.lines (base + 5) ++ [.plain .return]) ∧
      p.Has (base + 5 + body.size + 1) (next.lines (base + 5 + body.size + 1)) := by
  rw [Code.lines, ← List.singleton_append, List.append_assoc, List.append_assoc] at h
  obtain ⟨hjump, h⟩ := h.split rfl
  rw [← List.append_assoc] at h
  obtain ⟨hbody, hnext⟩ := h.split (by rw [Line.sizes_append, Code.sizes_lines])
  exact ⟨hjump, hbody, hnext⟩

/-- The code of a call: its operands stand in front of it. -/
theorem Code.has_call {address : Nat} {count : UInt8}
    (h : p.Has base ((Code.call operands address count next).lines base)) :
    p.Has base (operands.lines base) ∧
      p.Has (base + operands.size) [.plain (.call (Int32.ofNat address) count)] ∧
      p.Has (base + operands.size + 6) (next.lines (base + operands.size + 6)) := by
  rw [Code.lines, List.append_assoc] at h
  obtain ⟨hoperands, h⟩ := h.split (by rw [Operands.sizes_lines])
  obtain ⟨hcall, hnext⟩ := h.split rfl
  exact ⟨hoperands, hcall, hnext⟩

/-- The code of a call of a function: its operands stand in front of it. -/
theorem Code.has_native {id : UInt16} {count : UInt8}
    (h : p.Has base ((Code.native operands id count next).lines base)) :
    p.Has base (operands.lines base) ∧
      p.Has (base + operands.size) [.plain (.nativeCall id count)] ∧
      p.Has (base + operands.size + 4) (next.lines (base + operands.size + 4)) := by
  rw [Code.lines, List.append_assoc] at h
  obtain ⟨hoperands, h⟩ := h.split (by rw [Operands.sizes_lines])
  obtain ⟨hcall, hnext⟩ := h.split rfl
  exact ⟨hoperands, hcall, hnext⟩

/-- The code of a call of a program: one instruction. -/
theorem Code.has_program {index : Nat} {target : Program} {code : Code}
    (h : p.Has base ((Code.program index target code next).lines base)) :
    p.Has base [.plain (.callProgram index.toUInt16)] ∧ p.Has (base + 3) (next.lines (base + 3)) := by
  rw [Code.lines, ← List.singleton_append] at h
  exact h.split rfl

theorem Operands.has_constant {c : Constant} {next : Operands}
    (h : p.Has base ((Operands.constant c next).lines base)) :
    p.Has base c.lines ∧ p.Has (base + Line.sizes c.lines) (next.lines (base + Line.sizes c.lines)) := by
  rw [Operands.lines] at h
  exact h.split rfl

/-- A captured operand: its pattern stands between two instructions on outputs. -/
theorem Operands.has_capture {numeric : Bool} {next : Operands}
    (h : p.Has base ((Operands.capture numeric body next).lines base)) :
    p.Has base [.plain .newOutput] ∧ p.Has (base + 1) (body.lines (base + 1)) ∧
      p.Has (base + 1 + body.size) (captureEnd numeric) ∧
      p.Has (base + 1 + body.size + Line.sizes (captureEnd numeric))
        (next.lines (base + 1 + body.size + Line.sizes (captureEnd numeric))) := by
  rw [Operands.lines, ← List.singleton_append] at h
  simp only [List.append_assoc] at h
  obtain ⟨hopen, h⟩ := h.split rfl
  obtain ⟨hbody, h⟩ := h.split (by rw [Code.sizes_lines])
  obtain ⟨hclose, hnext⟩ := h.split rfl
  exact ⟨hopen, hbody, hclose, hnext⟩

/-- A deferred operand: a jump over its pattern, and the address of the pattern. -/
theorem Operands.has_pointer {next : Operands}
    (h : p.Has base ((Operands.pointer body next).lines base)) :
    p.Has base [.plain (.jump (Int32.ofNat (base + 5 + body.size + 1)))] ∧
      p.Has (base + 5) (body.lines (base + 5) ++ [.plain .return]) ∧
      p.Has (base + 5 + body.size + 1) [.plain (.pushAddress (Int32.ofNat (base + 5)))] ∧
      p.Has (base + 5 + body.size + 6) (next.lines (base + 5 + body.size + 6)) := by
  rw [Operands.lines, ← List.singleton_append] at h
  simp only [List.append_assoc] at h
  obtain ⟨hjump, h⟩ := h.split rfl
  have hreturn : [Line.plain .return, .plain (.pushAddress (Int32.ofNat (base + 5)))] =
      [.plain .return] ++ [.plain (.pushAddress (Int32.ofNat (base + 5)))] := rfl
  rw [hreturn, List.append_assoc, ← List.append_assoc] at h
  obtain ⟨hbody, h⟩ := h.split (by rw [Line.sizes_append, Code.sizes_lines])
  obtain ⟨hpush, hnext⟩ := h.split rfl
  exact ⟨hjump, hbody, hpush, hnext⟩

/-- An item: its body and the end of the block. -/
theorem Choices.has_item {weight : Option UInt64} {next : Choices}
    (h : p.Has base ((Choices.item weight body next).lines base)) :
    p.Has base (body.lines base ++ [.plain .blockEnd]) ∧
      p.Has (base + body.size + 1) (next.lines (base + body.size + 1)) := by
  rw [Choices.lines] at h
  exact h.split (by rw [Line.sizes_append, Code.sizes_lines]; rfl)

/-- An item with a weight that is a pattern: the weight stands in front of it. -/
theorem Choices.has_weighted {weight : Code} {next : Choices}
    (h : p.Has base ((Choices.weighted weight body next).lines base)) :
    p.Has base [.plain .newOutput] ∧
      p.Has (base + 1) (weight.lines (base + 1) ++ [.plain .returnOutput, .plain .return]) ∧
      p.Has (base + 1 + weight.size + 2)
        (body.lines (base + 1 + weight.size + 2) ++ [.plain .blockEnd]) ∧
      p.Has (base + 1 + weight.size + 2 + body.size + 1)
        (next.lines (base + 1 + weight.size + 2 + body.size + 1)) := by
  rw [Choices.lines, ← List.singleton_append] at h
  simp only [List.append_assoc] at h
  obtain ⟨hopen, h⟩ := h.split rfl
  rw [← List.append_assoc] at h
  obtain ⟨hweight, h⟩ := h.split (by rw [Line.sizes_append, Code.sizes_lines])
  rw [← List.append_assoc] at h
  obtain ⟨hbody, hnext⟩ := h.split (by rw [Line.sizes_append, Code.sizes_lines])
  exact ⟨hopen, hweight, hbody, hnext⟩

end

/-! ### Subroutines -/

/-- A subroutine in a program, with all that it refers to. -/
structure Definition.Within (lib : Option Registry) (s : Reach) (p : Program) (d : Definition) : Prop where
  has : p.Has d.address (d.body.lines d.address ++ [.plain .return])
  sound : d.body.Sound lib { s with arity := d.arity } d.address

mutual

/-- The definitions in sound code are bodies of the program. -/
theorem Code.definitions_within {p : Program} : ∀ (c : Code) {s : Reach} {base : Nat},
    p.Has base (c.lines base) → c.Sound lib s base → ∀ d ∈ c.definitions base, d.Within lib s p
  | .nil, _, _, _, _ => by simp [Code.definitions]
  | .act operands a next, s, base, hhas, hsound => by
    obtain ⟨hoperands, -, hnext⟩ := Code.has_act hhas
    rw [Code.Sound] at hsound
    rw [Code.definitions, List.forall_mem_append]
    exact ⟨operands.definitions_within hoperands hsound.1, next.definitions_within hnext hsound.2.2.2⟩
  | .ifThen operands test yes next, s, base, hhas, hsound => by
    obtain ⟨hoperands, -, hyes, hnext⟩ := Code.has_ifThen hhas
    rw [Code.Sound] at hsound
    rw [Code.definitions, List.forall_mem_append, List.forall_mem_append]
    exact ⟨⟨operands.definitions_within hoperands hsound.1, yes.definitions_within hyes hsound.2.2.1⟩,
      next.definitions_within hnext hsound.2.2.2⟩
  | .ifElse operands test yes no next, s, base, hhas, hsound => by
    obtain ⟨hoperands, -, hyes, -, hno, hnext⟩ := Code.has_ifElse hhas
    rw [Code.Sound] at hsound
    rw [Code.definitions, List.forall_mem_append, List.forall_mem_append, List.forall_mem_append]
    exact ⟨⟨⟨operands.definitions_within hoperands hsound.1, yes.definitions_within hyes hsound.2.2.1⟩,
      no.definitions_within hno hsound.2.2.2.1⟩, next.definitions_within hnext hsound.2.2.2.2⟩
  | .block index choices next, s, base, hhas, hsound => by
    obtain ⟨-, hchoices, hnext⟩ := Code.has_block hhas
    rw [Code.Sound] at hsound
    rw [Code.definitions, List.forall_mem_append]
    exact ⟨choices.definitions_within hchoices hsound.2.1, next.definitions_within hnext hsound.2.2⟩
  | .define arity body next, s, base, hhas, hsound => by
    obtain ⟨-, hbody, hnext⟩ := Code.has_define hhas
    rw [Code.Sound] at hsound
    rw [Code.definitions, List.forall_mem_append, List.forall_mem_cons]
    refine ⟨⟨⟨hbody, hsound.1⟩, fun d hd => ?_⟩, next.definitions_within hnext hsound.2⟩
    have hwithin := body.definitions_within hbody.left hsound.1 d hd
    exact ⟨hwithin.has, hwithin.sound⟩
  | .call operands address count next, s, base, hhas, hsound => by
    obtain ⟨hoperands, -, hnext⟩ := Code.has_call hhas
    rw [Code.Sound] at hsound
    rw [Code.definitions, List.forall_mem_append]
    exact ⟨operands.definitions_within hoperands hsound.1, next.definitions_within hnext hsound.2.2.2⟩
  | .native operands id count next, s, base, hhas, hsound => by
    obtain ⟨hoperands, -, hnext⟩ := Code.has_native hhas
    rw [Code.Sound] at hsound
    rw [Code.definitions, List.forall_mem_append]
    exact ⟨operands.definitions_within hoperands hsound.1, next.definitions_within hnext hsound.2.2⟩
  | .program index target code next, s, base, hhas, hsound => by
    obtain ⟨-, hnext⟩ := Code.has_program hhas
    rw [Code.Sound] at hsound
    rw [Code.definitions]
    exact next.definitions_within hnext hsound.2.2

theorem Operands.definitions_within {p : Program} :
    ∀ (c : Operands) {s : Reach} {base : Nat}, p.Has base (c.lines base) → c.Sound lib s base →
      ∀ d ∈ c.definitions base, d.Within lib s p
  | .nil, _, _, _, _ => by simp [Operands.definitions]
  | .constant c next, s, base, hhas, hsound => by
    obtain ⟨-, hnext⟩ := Operands.has_constant hhas
    rw [Operands.Sound] at hsound
    rw [Operands.definitions]
    exact next.definitions_within hnext hsound
  | .capture numeric body next, s, base, hhas, hsound => by
    obtain ⟨-, hbody, -, hnext⟩ := Operands.has_capture hhas
    rw [Operands.Sound] at hsound
    rw [Operands.definitions, List.forall_mem_append]
    exact ⟨body.definitions_within hbody hsound.1, next.definitions_within hnext hsound.2⟩
  | .pointer body next, s, base, hhas, hsound => by
    obtain ⟨-, hbody, -, hnext⟩ := Operands.has_pointer hhas
    rw [Operands.Sound] at hsound
    rw [Operands.definitions, List.forall_mem_append]
    exact ⟨body.definitions_within hbody.left hsound.1, next.definitions_within hnext hsound.2⟩

theorem Choices.definitions_within {p : Program} :
    ∀ (c : Choices) {s : Reach} {base : Nat}, p.Has base (c.lines base) → c.Sound lib s base →
      ∀ d ∈ c.definitions base, d.Within lib s p
  | .nil, _, _, _, _ => by simp [Choices.definitions]
  | .item weight body next, s, base, hhas, hsound => by
    obtain ⟨hbody, hnext⟩ := Choices.has_item hhas
    rw [Choices.Sound] at hsound
    rw [Choices.definitions, List.forall_mem_append]
    exact ⟨body.definitions_within hbody.left hsound.1, next.definitions_within hnext hsound.2⟩
  | .weighted weight body next, s, base, hhas, hsound => by
    obtain ⟨-, hweight, hbody, hnext⟩ := Choices.has_weighted hhas
    rw [Choices.Sound] at hsound
    rw [Choices.definitions, List.forall_mem_append, List.forall_mem_append]
    exact ⟨⟨weight.definitions_within hweight.left hsound.1,
      body.definitions_within hbody.left hsound.2.1⟩, next.definitions_within hnext hsound.2.2⟩

end

/-! ### Programs -/

/-- What a program's code may refer to outside of subroutines. -/
def Activation.reach (a : Activation) : Reach := ⟨a.program.tables, a.code.Knows, a.args.length⟩

/-- The activation is of a program that consists of a sound tree. -/
structure Activation.Loaded (lib : Option Registry) (a : Activation) : Prop where
  reads : a.program.Reads (a.code.lines 0)
  small : a.program.Small
  sound : a.code.Sound lib ⟨a.program.tables, a.code.Knows, 0⟩ 0

/-- A subroutine that is known is there. -/
theorem Activation.Loaded.definition? {a : Activation} (h : a.Loaded lib) {address arity : Nat}
    (hknown : a.code.Knows address arity) :
    ∃ d, a.definition? address arity = some d ∧ d.address = address ∧ d.arity = arity ∧
      d.Within lib a.reach a.program := by
  obtain ⟨d, hd, hmatch⟩ := hknown
  obtain ⟨e, he⟩ : ∃ e, a.definition? address arity = some e := by
    rw [← Option.isSome_iff_exists, Activation.definition?, List.find?_isSome]
    exact ⟨d, hd, by simpa using hmatch⟩
  have hmem := List.mem_of_find?_eq_some he
  have hfound := List.find?_some he
  simp only [Bool.and_eq_true, beq_iff_eq] at hfound
  have hwithin := a.code.definitions_within h.reads.has h.sound e hmem
  exact ⟨e, he, hfound.1, hfound.2, hwithin.has, hwithin.sound⟩

end Wordloom
