import Wordloom.Proofs.Compiled
import Wordloom.Proofs.Readings
import Wordloom.Proofs.Scanning
import Wordloom.Proofs.Scoping

/-!
# Wordloom.Proofs.Lowering

Patterns that are known to compile. While the compiler reads the lexemes of a pattern, the names in
scope are those of its scoping, and the code so far means what evaluation has come to; and no more
constructs are gone on with than there are tokens for.
-/

namespace Wordloom

/-! ## What a draft means -/

def Sense.print (text : String) : Sense Unit := fun _ => Direct.print text

theorem Sense.print_empty (y : Sense Unit) : (do y; print "") = y := by
  have hempty : print "" = pure () := funext fun _ => Direct.print_empty
  rw [hempty, bind_pure_unit]

theorem Sense.print_print (y : Sense Unit) (a b : String) :
    (do (do y; print a); print b) = (do y; print (a ++ b)) := by
  rw [bind_assoc]
  refine bind_congr fun _ => ?_
  exact funext fun _ => Direct.print_print a b

/-- The code of a draft means an evaluation, with the text that is printed last. -/
def Draft.Means (env : Environment) (before after : List Link) (locals : List String) (d : Draft)
    (y : Sense Unit) : Prop :=
  ∃ z, d.code.Means env before after locals d.base z ∧
    y = (do z; Sense.print (d.pending.getD ""))

namespace Draft.Means

variable {env : Environment} {before middle after : List Link} {locals more : List String}
  {d : Draft} {y z : Sense Unit}

theorem start (ls : List Line) :
    (⟨ls, .nil, none⟩ : Draft).Means env before before locals (pure ()) :=
  ⟨pure (), .nil, (Sense.print_empty _).symm⟩

theorem closed (h : d.Means env before after locals y) :
    d.closed.Means env before after locals d.base y := by
  obtain ⟨z, hz, rfl⟩ := h
  unfold Draft.closed
  cases d.pending with
  | none =>
    rw [Option.getD_none, Sense.print_empty, Option.elim_none, Code.append_nil]
    exact hz
  | some text => exact hz.append (.print text)

theorem print (h : d.Means env before after locals y) (text : String) :
    (d.print text).Means env before after locals (do y; Sense.print text) := by
  obtain ⟨z, hz, rfl⟩ := h
  exact ⟨z, hz, Sense.print_print z _ text⟩

theorem add {code : Code} (h : d.Means env before middle locals y)
    (hcode : code.Means env middle after locals d.finish z) :
    (d.add code).Means env before after locals (do y; z) :=
  ⟨_, h.closed.append hcode, (Sense.print_empty _).symm⟩

theorem extend (h : d.Means env before after locals y) (hlocals : locals <+: more) :
    d.Means env before after more y := by
  obtain ⟨z, hz, hy⟩ := h
  exact ⟨z, hz.extend hlocals, hy⟩

end Draft.Means

namespace Compile

variable {ctx : Context} {c c' : Compilation} {name : String}

/-! ## Steps -/

/-- A step that came to `r` leads to the end of its construct when constructs are gone on with `n`
times. -/
inductive Finishes (ctx : Context) :
    (n : Nat) → EStateM.Result Error Compilation Step → Compilation → Prop where
  | done {c : Compilation} : Finishes ctx 0 (.ok .done c) c
  | push {self child : Construct} {m n : Nat} {c c₁ c' : Compilation}
    (hchild : Finishes ctx m (child.resume ctx c) c₁)
    (hself : Finishes ctx n (self.resume ctx c₁) c') :
    Finishes ctx (m + n + 2) (.ok (.push self child) c) c'

theorem Finishes.run {n : Nat} {r : EStateM.Result Error Compilation Step} (h : Finishes ctx n r c')
    {k : Construct} (hk : k.resume ctx c = r) (ks : List Construct) (fuel : Nat) :
    Compile.run ctx (n + 1 + fuel) (k :: ks) c = Compile.run ctx fuel ks c' := by
  induction h generalizing k c ks fuel with
  | done =>
    have hfuel : 0 + 1 + fuel = fuel + 1 := by omega
    rw [hfuel, Compile.run, run_bind_of_ok hk]
  | @push self child m n _ _ _ _ _ ihchild ihself =>
    have hfuel : m + n + 2 + 1 + fuel = (m + 1 + (n + 1 + fuel)) + 1 := by omega
    rw [hfuel, Compile.run, run_bind_of_ok hk]
    change Compile.run ctx (m + 1 + (n + 1 + fuel)) (child :: self :: ks) _ = _
    rw [ihchild rfl, ihself rfl]

/-- The end is reached in at most four times as many steps as there are tokens read on the way, of
which there were `tokens` to read. -/
def Reaches (ctx : Context) (tokens : Nat) (r : EStateM.Result Error Compilation Step)
    (c' : Compilation) : Prop :=
  ∃ n, Finishes ctx n r c' ∧ n + 4 * c'.reader.rest.length ≤ 4 * tokens

namespace Reaches

variable {tokens : Nat} {r : EStateM.Result Error Compilation Step}

theorem done (h : c.reader.rest.length ≤ tokens) : Reaches ctx tokens (.ok .done c) c :=
  ⟨0, .done, by omega⟩

theorem mono (h : Reaches ctx tokens r c') {more : Nat} (hmore : tokens ≤ more) :
    Reaches ctx more r c' := by
  obtain ⟨n, hn, hle⟩ := h
  exact ⟨n, hn, by omega⟩

/-- A construct is entered for a token that has been read. -/
theorem push {self child : Construct} {c₁ : Compilation}
    (hchild : Reaches ctx tokens (child.resume ctx c) c₁)
    (hself : Reaches ctx c₁.reader.rest.length (self.resume ctx c₁) c') :
    Reaches ctx (tokens + 1) (.ok (.push self child) c) c' := by
  obtain ⟨m, hm, hle⟩ := hchild
  obtain ⟨n, hn, hle'⟩ := hself
  exact ⟨m + n + 2, .push hm hn, by omega⟩

/-- A construct is entered that reads a token when it is gone on with. -/
theorem push_of_lt {self child : Construct} {c₁ : Compilation} {k : Nat}
    (hchild : Reaches ctx tokens (child.resume ctx c) c₁) (hk : k < c₁.reader.rest.length)
    (hself : Reaches ctx k (self.resume ctx c₁) c') :
    Reaches ctx tokens (.ok (.push self child) c) c' := by
  obtain ⟨m, hm, hle⟩ := hchild
  obtain ⟨n, hn, hle'⟩ := hself
  exact ⟨m + n + 2, .push hm hn, by omega⟩

end Reaches

/-! ## Tokens -/

/-- The lexemes still to be read. -/
def Compilation.Faces (c : Compilation) (ls : List Lexeme) : Prop :=
  List.Forall₂ Token.Is c.reader.rest ls

theorem Compilation.Faces.length {ls : List Lexeme} (h : c.Faces ls) :
    c.reader.rest.length = ls.length := List.Forall₂.length_eq h

theorem Compilation.Faces.cons {l : Lexeme} {ls : List Lexeme} (h : c.Faces (l :: ls)) :
    ∃ t ts, c.reader.rest = t :: ts ∧ t.Is l ∧ (c.past t ts).Faces ls := by
  obtain ⟨t, ts, ht, hts, hrest⟩ := List.forall₂_cons_right_iff.1 h
  exact ⟨t, ts, hrest, ht, hts⟩

/-- What a pattern may end in front of. -/
def Terminator.Meets (stop : Terminator) : List Lexeme → Prop
  | [] => stop = .root
  | l :: _ => stop.endsAt l.kind = true

theorem Compilation.passes_past {t : Token} {ts : List Token} (h : c.reader.rest = t :: ts) :
    c.reader.Passes 1 (c.past t ts).reader := by
  rw [Token.Reader.Passes, h]
  exact Nat.le_refl _

/-! ## Names -/

namespace Scopes

variable {α : Type} (s : Scopes α) (name : String) (a : α)

theorem find?_add (other : String) :
    (s.add name a).find? other = if other = name then some a else s.find? other := by
  unfold find? add
  rw [List.findSome?_cons, List.findSome?_cons, Std.TreeMap.getElem?_insert]
  by_cases hname : other = name
  · subst hname
    simp
  · have hcompare : ¬ compare name other = .eq := fun heq =>
      hname (Std.LawfulEqCmp.eq_of_compare heq).symm
    rw [if_neg hcompare, if_neg hname]

theorem find?_openNew : s.openNew.find? name = s.find? name := by
  simp [find?, openNew]

end Scopes

theorem Compilation.local?_congr (h : c.slots.find? name = c'.slots.find? name)
    (hframe : c.frame = c'.frame) : c.local? name = c'.local? name := by
  rw [local?, local?, h, hframe]

theorem Compilation.argument?_congr (h : c.slots.find? name = c'.slots.find? name)
    (hframe : c.frame = c'.frame) : c.argument? name = c'.argument? name := by
  rw [argument?, argument?, h, hframe]

/-- The names in scope are those of a scoping, with the addresses of subroutines. -/
structure Compilation.Knows (c : Compilation) (s : Scoping) (links : List Link) : Prop where
  procedures : s.procedures = links.map (·.procedure)
  subroutines : ∀ name, c.subroutines.find? name =
    (Link.find? name links).map fun found =>
      ⟨found.1.address, found.1.procedure.params.length⟩
  locals : ∀ name, c.local? name = placeIn s.locals name
  arguments : ∀ name, name ∉ s.locals → c.argument? name = placeOf? name s.params
  count : c.locals = s.locals.length
  small : s.locals.length < 2 ^ 16
  few : s.params.length < 2 ^ 8

namespace Compilation.Knows

variable {s s' : Scoping} {links : List Link} {name : String}

/-- Reading and emitting leave the names. -/
theorem move (h : c.Knows s links) (r : Token.Reader) (e : Emitter) :
    ({ c with reader := r, out := e } : Compilation).Knows s links :=
  ⟨h.procedures, h.subroutines, h.locals, h.arguments, h.count, h.small, h.few⟩

theorem local?_eq (h : c.Knows s links) (hname : name ∈ s.locals) :
    c.local? name = some (s.locals.idxOf name) := by
  rw [h.locals, placeIn, if_pos hname]

theorem toNat_idxOf (h : c.Knows s links) (hname : name ∈ s.locals) :
    (s.locals.idxOf name).toUInt16.toNat = s.locals.idxOf name := by
  have hlt := List.idxOf_lt_length_of_mem hname
  have hsmall := h.small
  simp only [Nat.toUInt16_eq, UInt16.toNat_ofNat']
  exact Nat.mod_eq_of_lt (by omega)

/-- A variable is set for the first time. -/
theorem addLocal (h : c.Knows s links) (hname : name ∉ s.locals) (hsmall : s.locals.length + 1 < 2 ^ 16) :
    (c.addLocal name).Knows { s with locals := s.locals ++ [name] } links := by
  have hfind : ∀ other, other ≠ name → (c.addLocal name).slots.find? other = c.slots.find? other :=
    fun other hother => (c.slots.find?_add name _ other).trans (if_neg hother)
  have hnew : (c.addLocal name).local? name = some c.locals := by
    rw [local?, Compilation.addLocal, Scopes.find?_add, if_pos rfl]
    exact if_pos rfl
  refine ⟨h.procedures, h.subroutines, fun other => ?_, fun other hother => ?_, ?_, ?_, h.few⟩
  · rw [placeIn]
    by_cases hother : other = name
    · subst hother
      rw [hnew, if_pos (by simp), List.idxOf_append_of_notMem hname, h.count]
      simp
    · rw [local?_congr (hfind other hother) rfl, h.locals, placeIn]
      by_cases hmem : other ∈ s.locals
      · rw [if_pos hmem, if_pos (List.mem_append_left _ hmem), List.idxOf_append_of_mem hmem]
      · rw [if_neg hmem, if_neg (by simp [hmem, hother])]
  · rw [List.mem_append, List.mem_singleton, not_or] at hother
    rw [argument?_congr (hfind other hother.2) rfl]
    exact h.arguments other hother.1
  · change c.locals + 1 = _
    rw [h.count, List.length_append]
    rfl
  · rw [List.length_append]
    exact hsmall

end Compilation.Knows

/-! ### Subroutines -/

theorem find?_addArguments (c : Compilation) (index : Nat) (names : List String) (name : String) :
    (c.addArguments index names).slots.find? name =
      match placeOf? name names with
      | some i => some (.arg c.frame (index + i))
      | none => c.slots.find? name := by
  induction names generalizing c index with
  | nil => rfl
  | cons first names ih =>
    rw [Compilation.addArguments, ih, placeOf?]
    cases placeOf? name names with
    | some i =>
      simp only [Option.some.injEq, Slot.arg.injEq]
      exact ⟨rfl, by omega⟩
    | none =>
      simp only [Scopes.find?_add]
      by_cases hname : first = name
      · rw [if_pos hname, if_pos hname.symm]
        rfl
      · rw [if_neg hname, if_neg fun h => hname h.symm]

/-- What is in scope belongs to a frame that is open. -/
theorem SlotsOk.frame_le {arity frame : Nat} {slots : Scopes Slot} (h : SlotsOk arity frame slots)
    {slot : Slot} (hslot : slots.find? name = some slot) : slot.frame ≤ frame := by
  obtain ⟨scope, hscope, hname⟩ := List.exists_of_findSome?_eq_some hslot
  obtain rfl | hscope := List.mem_cons.1 hscope
  · exact Nat.le_of_eq (h.inner name slot hname)
  · exact Nat.le_of_lt (h.outer scope hscope name slot hname)

namespace Compilation.Knows

variable {s : Scoping} {links : List Link} {params : List String}

/-- A subroutine is known from its head on. -/
theorem withSubroutine (h : c.Knows s links) (p : Procedure) :
    (c.withSubroutine p.name p.params.length).Knows
      { s with procedures := p :: s.procedures } (⟨p, c.out.position⟩ :: links) := by
  refine ⟨by rw [List.map_cons, h.procedures], fun name => ?_, h.locals, h.arguments, h.count,
    h.small, h.few⟩
  rw [Compilation.withSubroutine, Scopes.find?_add, Link.find?]
  by_cases hname : p.name = name
  · rw [if_pos hname, if_pos hname.symm]
    rfl
  · rw [if_neg hname, if_neg fun h => hname h.symm]
    exact h.subroutines name

/-- In its body there are its parameters and no variables. -/
theorem openFrame (h : c.Knows s links) {arity : Nat} (hslots : SlotsOk arity c.frame c.slots)
    (hparams : params.length < 2 ^ 8) :
    (c.openFrame.addArguments 0 params).Knows ⟨params, [], s.procedures⟩ links := by
  have hfind := find?_addArguments c.openFrame 0 params
  have houter : ∀ name slot, c.openFrame.slots.find? name = some slot → slot.frame ≠ c.frame + 1 := by
    intro name slot hslot
    have hle := hslots.frame_le ((c.slots.find?_openNew name).symm.trans hslot)
    omega
  obtain ⟨slots, hopened, -⟩ := frame_addArguments c.openFrame 0 params
  have hframe : (c.openFrame.addArguments 0 params).frame = c.frame + 1 := by
    rw [hopened]
    rfl
  refine ⟨h.procedures, fun name => ?_, fun name => ?_, fun name _ => ?_, ?_, by simp, hparams⟩
  · have hsubroutines : (c.openFrame.addArguments 0 params).subroutines = c.subroutines.openNew := by
      rw [hopened]
      rfl
    rw [hsubroutines, Scopes.find?_openNew]
    exact h.subroutines name
  · rw [local?, hframe, hfind, placeIn, if_neg List.not_mem_nil]
    cases placeOf? name params with
    | some i => rfl
    | none =>
      dsimp only
      cases hslot : c.openFrame.slots.find? name with
      | none => rfl
      | some slot =>
        cases slot with
        | var frame index => exact if_neg (houter name _ hslot)
        | arg frame index => rfl
  · rw [argument?, hframe, hfind]
    cases placeOf? name params with
    | some i => exact (if_pos rfl).trans (congrArg some (Nat.zero_add i))
    | none =>
      dsimp only
      cases hslot : c.openFrame.slots.find? name with
      | none => rfl
      | some slot =>
        cases slot with
        | var frame index => rfl
        | arg frame index => exact if_neg (houter name _ hslot)
  · rw [hopened]
    rfl

end Compilation.Knows

/-! ## Shapes of code -/

/-- What has been added to a draft. Where it is static, there is only static code in it; where it is
text, it has been joined to what is printed last, if places are not marked. Whether they are marked is
said by `marks`, and by `marks'` afterwards. -/
structure Adds (static text : Bool) (d : Draft) (marks : Bool) (d' : Draft) (marks' : Bool) : Prop where
  front : d'.front = d.front
  keeps : static = true → marks' = marks
  static : static = true → ∃ added : Code, added.isStatic = true ∧ d'.code = d.code.append added
  text : text = true → marks = false → d'.code = d.code

namespace Adds

variable {static static' text text' marks marks₁ marks' : Bool} {d d₁ d' : Draft}

theorem of_front (h : d'.front = d.front) : Adds false false d marks d' marks' :=
  ⟨h, nofun, nofun, nofun⟩

theorem refl : Adds static text d marks d marks :=
  ⟨rfl, fun _ => rfl, fun _ => ⟨.nil, rfl, (Code.append_nil _).symm⟩, fun _ _ => rfl⟩

theorem trans (h : Adds static text d marks d₁ marks₁) (h' : Adds static' text' d₁ marks₁ d' marks')
    (htext : text = true → static = true) :
    Adds (static && static') (text && text') d marks d' marks' := by
  refine ⟨h'.front.trans h.front, fun hstatic => ?_, fun hstatic => ?_, fun hboth hmarks => ?_⟩
  · rw [Bool.and_eq_true] at hstatic
    rw [h'.keeps hstatic.2, h.keeps hstatic.1]
  · rw [Bool.and_eq_true] at hstatic
    obtain ⟨added, hadded, hcode⟩ := h.static hstatic.1
    obtain ⟨more, hmore, hcode'⟩ := h'.static hstatic.2
    refine ⟨added.append more, by rw [Code.isStatic_append, hadded, hmore, Bool.and_self], ?_⟩
    rw [hcode', hcode, Code.append_assoc]
  · rw [Bool.and_eq_true] at hboth
    rw [h'.text hboth.2 ((h.keeps (htext hboth.1)).trans hmarks), h.text hboth.1 hmarks]

theorem print (e : Emitter) (s : String) :
    Adds true true d e.debug (d.print s) (e.emitString .print s).debug :=
  ⟨rfl, fun _ => e.debug_apply (.emitString .print s),
    fun _ => ⟨.nil, rfl, (Code.append_nil _).symm⟩, fun _ _ => rfl⟩

/-- With the code that is added, the text that was printed last gets its place. -/
theorem add {code : Code} (hkeeps : static = true → marks' = marks)
    (hcode : static = true → code.isStatic = true) (htext : text = true → marks = true) :
    Adds static text d marks (d.add code) marks' := by
  refine ⟨rfl, hkeeps, fun hstatic => ?_, fun htrue hfalse => ?_⟩
  · refine ⟨(d.pending.elim Code.nil fun s => .act .nil (.print s) .nil).append code, ?_, ?_⟩
    · rw [Code.isStatic_append, hcode hstatic, Bool.and_true]
      cases d.pending with
      | none | some _ => rfl
    · rw [Draft.add, Draft.closed, Code.append_assoc]
  · rw [htext htrue] at hfalse
    cases hfalse

/-- The text that is printed last belongs to what has been added. -/
theorem closed (h : Adds static text d marks d' marks') (hstatic : static = true) :
    ∃ added : Code, added.isStatic = true ∧ d'.closed = d.code.append added := by
  obtain ⟨added, hadded, hcode⟩ := h.static hstatic
  refine ⟨added.append (d'.pending.elim .nil fun s => .act .nil (.print s) .nil), ?_, ?_⟩
  · rw [Code.isStatic_append, hadded, Bool.true_and]
    cases d'.pending with
    | none | some _ => rfl
  · rw [Draft.closed, hcode, Code.append_assoc]

end Adds

/-- The code of a pattern: static if the pattern is, and at most one print if it is text. -/
structure Shapes (p : Pattern) (code : Code) (marks marks' : Bool) : Prop where
  keeps : p.isStatic = true → marks' = marks
  static : p.isStatic = true → code.isStatic = true
  short : p.isText = true → marks = false → code.size ≤ 5

/-- A pattern that nothing stood before has the shape of what it added. -/
theorem Adds.shapes {p : Pattern} {front : List Line} {d' : Draft} {marks marks' : Bool}
    (h : Adds p.isStatic p.isText ⟨front, .nil, none⟩ marks d' marks') :
    Shapes p d'.closed marks marks' where
  keeps := h.keeps
  static hstatic := by
    obtain ⟨added, hadded, hclosed⟩ := h.closed hstatic
    rwa [hclosed, Code.append]
  short htext hmarks := by
    rw [Draft.closed, h.text htext hmarks, Code.append]
    cases d'.pending with
    | none => exact Nat.zero_le 5
    | some _ => exact Nat.le_refl 5

/-! ## Patterns -/

section

variable {env : Environment} {lib : Option Registry} {g : Setting} {before links : List Link}
  {s s' : Scoping} {y : Sense Unit} {n : Nat} {d : Draft} {t : Token} {ts : List Token}

/-- An escape of a fixed character prints what it says, if that is anything. -/
theorem escape_of_escaped {digits code : List Char} {text : String}
    (ht : t.text = String.ofList (Lexeme.escape digits code).chars)
    (h : Lexeme.escaped? digits code = some text) :
    Compile.escape t = if text = "" then pure () else Compiling.emitString .print text := by
  obtain ⟨count, ch, hofText, hle, rfl⟩ := Token.ofText?_of_escaped h
  rw [Compile.escape, ht, hofText]
  simp [Nat.not_lt.2 hle]

/-- A pattern whose code so far means `y`; `s` and `links` are what is known behind it. -/
structure Written (env : Environment) (lib : Option Registry) (g : Setting) (before : List Link)
    (s : Scoping) (links : List Link) (y : Sense Unit) (n : Nat) (d : Draft)
    (c : Compilation) : Prop where
  inv : Inv lib g n d c
  means : d.Means env before links s.locals y
  knows : c.Knows s links

namespace Written

theorem reader (h : Written env lib g before s links y n d c) {k : Nat} {r : Token.Reader}
    (hr : c.reader.Passes k r) : Written env lib g before s links y (n + k) d { c with reader := r } :=
  ⟨h.inv.reader hr, h.means, h.knows.move _ _⟩

theorem past (h : Written env lib g before s links y n d c) (hrest : c.reader.rest = t :: ts) :
    Written env lib g before s links y (n + 1) d (c.past t ts) := h.reader (c.passes_past hrest)

theorem spare (h : Written env lib g before s links y n d c) {k : Nat} (hk : k ≤ n) :
    Written env lib g before s links y k d c := ⟨h.inv.spare hk, h.means, h.knows⟩

theorem print (h : Written env lib g before s links y (n + 1) d c) (text : String) :
    Written env lib g before s links (do y; Sense.print text) n (d.print text)
      { c with out := c.out.emitString .print text } :=
  ⟨h.inv.print text, h.means.print text, h.knows.move _ _⟩

/-- Marks of the source mean nothing. -/
theorem mark (h : Written env lib g before s links y n d c) (p : Position) :
    ∃ d' : Draft, Adds true true d c.out.debug d' (c.out.mark p).debug ∧
      Written env lib g before s links y n d' { c with out := c.out.mark p } := by
  unfold Emitter.mark
  split
  · rename_i hdebug
    refine ⟨d.add (.act .nil (.mark p) .nil), .add (fun _ => rfl) (fun _ => rfl) fun _ => hdebug,
      h.inv.act (.mark p) rfl rfl rfl trivial, ?_, h.knows.move _ _⟩
    have hmark : (Code.act .nil (.mark p) .nil).Means env links links s.locals d.finish (pure ()) :=
      Code.Means.act (f := fun _ => pure ()) .nil fun _ _ _ => Tracks.pure ()
    have hmeans := h.means.add hmark
    rwa [bind_pure_unit] at hmeans
  · exact ⟨d, .refl, h⟩

/-- An escape of a fixed character prints it as often as it says. -/
theorem escape {l : Lexeme} (h : Written env lib g before s links y 1 d c) (hl : l.isLeaf = true)
    (hkind : l.kind = .escape) (ht : t.Is l) :
    ∃ (d' : Draft) (e : Emitter), Adds true true d c.out.debug d' e.debug ∧
      Compile.escape t c = .ok () { c with out := e } ∧
      Written env lib g before s links (do y; Sense.print l.prints) 0 d'
        { c with out := e } := by
  cases l with
  | text _ | blank _ | literal _ => cases hkind
  | mark kind =>
    cases kind with
    | escape => cases hl
    | _ => cases hkind
  | escape digits code =>
    obtain ⟨text, htext⟩ := Option.isSome_iff_exists.1 hl
    have hprints : (Lexeme.escape digits code).prints = text := by
      rw [Lexeme.prints, htext]
      rfl
    rw [hprints, escape_of_escaped ht.text htext]
    by_cases hempty : text = ""
    · subst hempty
      rw [if_pos rfl, Sense.print_empty]
      exact ⟨d, c.out, .refl, rfl, h.spare (Nat.zero_le 1)⟩
    · rw [if_neg hempty]
      exact ⟨d.print _, _, .print c.out text, rfl, h.print text⟩

end Written

end

end Compile

open Compile

/-- A pattern whose names are known is compiled, wherever it stands, to code that means what it is
evaluated to. -/
def Pattern.Lowers (ctx : Context) (env : Environment) (lib : Option Registry) (p : Pattern) : Prop :=
  ∀ {stop : Terminator} {g : Setting} {before links : List Link} {s s' : Scoping}
    {y : Sense Unit} {d : Draft} {c : Compilation} {rest : List Lexeme},
    Written env lib g before s links y 0 d c → c.Faces (p.lexemes ++ rest) → stop.Meets rest →
    p.check stop s = some s' →
    ∃ (d' : Draft) (c' : Compilation) (links' : List Link),
      Adds p.isStatic p.isText d c.out.debug d' c'.out.debug ∧
      Reaches ctx c.reader.rest.length ((Construct.pattern stop).resume ctx c) c' ∧ c'.Faces rest ∧
      Written env lib g before s' links' (do y; s.denote p) 0 d' c'

section

variable {ctx : Context} {env : Environment} {lib : Option Registry} {g : Setting}
  {before links : List Link} {s s' : Scoping} {y : Sense Unit} {n : Nat} {d : Draft}
  {c c' : Compilation} {t : Token} {ts : List Token} {stop : Terminator} {rest : List Lexeme}
  {l : Lexeme} {next : Pattern}

/-- A pattern inside a construct is compiled to code behind what is there of the construct. -/
theorem Pattern.Lowers.inside {p : Pattern} {ls : List Line} {defs : List Definition}
    {S : Reach → Prop} (hp : p.Lowers ctx env lib) (stop : Terminator)
    (h : Part lib g d ls defs S n c) (hended : c.out.Ended (d.lines ++ ls))
    (hmono : ∀ s s', Reach.Grows s s' → S s → S s') (hknows : c.Knows s links)
    (hfaces : c.Faces (p.lexemes ++ rest)) (hstop : stop.Meets rest)
    (hcheck : p.check stop s = some s') :
    ∃ (code : Code) (c₁ : Compilation) (links₁ : List Link),
      Shapes p code c.out.debug c₁.out.debug ∧
      Reaches ctx c.reader.rest.length ((Construct.pattern stop).resume ctx c) c₁ ∧ c₁.Faces rest ∧
      c₁.Knows s' links₁ ∧
      code.Means env links links₁ s'.locals (d.finish + Line.sizes ls) (s.denote p) ∧
      Part lib g d (ls ++ code.lines (d.finish + Line.sizes ls))
        (defs ++ code.definitions (d.finish + Line.sizes ls))
        (fun s => S s ∧ code.Sound lib s (d.finish + Line.sizes ls)) n c₁ := by
  obtain ⟨d', c₁, links₁, hadds, hreaches, hfaces', hwritten⟩ :=
    hp ⟨h.start hended, .start _, hknows⟩ hfaces hstop hcheck
  have hbase : d'.base = d.finish + Line.sizes ls := by
    rw [Draft.base, hadds.front, Line.sizes_append, d.sizes_lines]
  have hmeans := hwritten.means.closed
  rw [pure_bind, hbase] at hmeans
  exact ⟨d'.closed, c₁, links₁, hadds.shapes, hreaches, hfaces', hwritten.knows, hmeans,
    h.leave hmono hadds.front hwritten.inv⟩

namespace Pattern

theorem lowers_nil : Pattern.nil.Lowers ctx env lib := by
  intro stop g before links s s' y d c rest hwritten hfaces hstop hcheck
  cases hcheck
  have hdenote : (do y; s.denote .nil) = y := by
    have hpure : s.denote .nil = pure () := by
      funext call
      rw [Scoping.denote, Pattern.eval]
      rfl
    rw [hpure, bind_pure_unit]
  refine ⟨d, c, links, .refl, ?_, hfaces, by rw [hdenote]; exact hwritten⟩
  have hresume : (Construct.pattern stop).resume ctx c = .ok .done c := by
    change Compile.pattern stop c.reader.rest c = _
    cases rest with
    | nil =>
      have hnil : c.reader.rest = [] := List.length_eq_zero_iff.1 hfaces.length
      have hroot : stop = .root := hstop
      rw [hnil, Compile.pattern, if_pos hroot]
      rfl
    | cons l rest =>
      obtain ⟨t, ts, hrest, ht, -⟩ := Compilation.Faces.cons hfaces
      have hends : stop.endsAt t.kind = true := by
        rw [ht.kind]
        exact hstop
      rw [hrest, Compile.pattern, if_pos hends]
      rfl
  rw [hresume]
  exact .done (Nat.le_refl _)

theorem denote_leaf (s : Scoping) (l : Lexeme) (next : Pattern) :
    s.denote (.leaf l next) = (do Sense.print l.prints; s.denote next) := by
  funext call
  rw [Scoping.denote, Pattern.eval]
  rfl

/-- What has no meaning of its own is printed. -/
theorem resume_of_leaf (hl : l.isLeaf = true) (hescape : l.kind ≠ .escape)
    (hstop : stop.endsAt l.kind = false) (hrest : c.reader.rest = t :: ts) (ht : t.Is l) :
    (Construct.pattern stop).resume ctx c = (Construct.pattern stop).resume ctx
      { c.past t ts with out := c.out.emitString .print l.prints } := by
  have hprinted : l.kind.isPrinted = true := by
    cases l with
    | text s | blank s | literal s => rfl
    | escape digits code => exact absurd rfl hescape
    | mark kind => cases kind <;> first | rfl | cases hl
  rw [← ht.kind] at hstop hprinted
  change Compile.pattern stop c.reader.rest c = Compile.pattern stop ts _
  rw [hrest, pattern_cons_of_printed hprinted hstop hrest, ht.value hescape]

/-- A construct is entered behind a mark of its place. -/
theorem resume_of_enter {child : Construct} (hstop : stop.endsAt t.kind = false)
    (hrest : c.reader.rest = t :: ts)
    (hchild : t.kind = .leftSquare ∧ child = .tag t.position ∨ t.kind = .leftCurly ∧ child = .block ∨
      t.kind = .escape ∧ child = .escape t) :
    (Construct.pattern stop).resume ctx c = .ok (.push (.pattern stop) child)
      { c.past t ts with out := c.out.mark t.position } := by
  change Compile.pattern stop c.reader.rest c = _
  rw [hrest, Compile.pattern, hstop, if_neg Bool.false_ne_true,
    run_bind_of_ok (Compiling.read_of_rest hrest)]
  obtain ⟨hkind, rfl⟩ | ⟨hkind, rfl⟩ | ⟨hkind, rfl⟩ := hchild <;> (simp only [hkind]; rfl)

variable {child : Position → Construct}

/-- A construct in brackets is compiled, and then what stands behind it. -/
theorem reaches_of_child {kind : Token.Kind} {c₁ : Compilation}
    (hkind : kind = .leftSquare ∧ child = .tag ∨ kind = .leftCurly ∧ child = fun _ => .block)
    (hrest : c.reader.rest = t :: ts) (ht : t.Is (.mark kind))
    (hreaches : Reaches ctx ts.length ((child t.position).resume ctx
      { c.past t ts with out := c.out.mark t.position }) c₁)
    (hreaches' : Reaches ctx c₁.reader.rest.length ((Construct.pattern stop).resume ctx c₁) c') :
    Reaches ctx c.reader.rest.length ((Construct.pattern stop).resume ctx c) c' := by
  have hends : stop.endsAt t.kind = false := by
    rw [ht.kind]
    obtain ⟨rfl, -⟩ | ⟨rfl, -⟩ := hkind <;> cases stop <;> rfl
  have hentered : (Construct.pattern stop).resume ctx c = .ok (.push (.pattern stop)
      (child t.position)) { c.past t ts with out := c.out.mark t.position } := by
    refine resume_of_enter hends hrest ?_
    obtain ⟨rfl, rfl⟩ | ⟨rfl, rfl⟩ := hkind
    · exact .inl ⟨ht.kind, rfl⟩
    · exact .inr (.inl ⟨ht.kind, rfl⟩)
  have hlength : c.reader.rest.length = ts.length + 1 := by rw [hrest, List.length_cons]
  rw [hentered, hlength]
  exact .push hreaches hreaches'

/-- A construct in brackets, behind which a pattern goes on. -/
theorem lowers_of_child {p : Pattern} {kind : Token.Kind} {inner : List Lexeme} {static : Bool}
    (hstatic : p.isStatic = (static && next.isStatic)) (htext : p.isText = false)
    (hlexemes : p.lexemes = .mark kind :: (inner ++ next.lexemes))
    (hkind : kind = .leftSquare ∧ child = .tag ∨ kind = .leftCurly ∧ child = fun _ => .block)
    (hnext : next.Lowers ctx env lib)
    (hchild : ∀ {stop : Terminator} {g : Setting} {before links : List Link} {s s' : Scoping} {y : Sense Unit} {d : Draft} {c : Compilation} {rest : List Lexeme} (place : Position), p.check stop s = some s' → Written env lib g before s links y 1 d c → c.Faces (inner ++ rest) → ∃ (s₁ : Scoping) (z : Sense Unit) (d' : Draft) (c' : Compilation) (links' : List Link), next.check stop s₁ = some s' ∧ s.denote p = (do z; s₁.denote next) ∧ Adds static false d c.out.debug d' c'.out.debug ∧ Reaches ctx c.reader.rest.length ((child place).resume ctx c) c' ∧ c'.Faces rest ∧ Written env lib g before s₁ links' (do y; z) 0 d' c') :
    p.Lowers ctx env lib := by
  intro stop g before links s s' y d c rest hwritten hfaces hstop hcheck
  rw [hlexemes, List.cons_append, List.append_assoc] at hfaces
  obtain ⟨t, ts, hrest, ht, hfaces⟩ := hfaces.cons
  obtain ⟨d₁, hmark, hmarked⟩ := (hwritten.past hrest).mark t.position
  obtain ⟨s₁, z, d₂, c₁, links₁, hcheck', hdenote, hadds, hreaches, hfaces', hwritten'⟩ :=
    hchild t.position hcheck hmarked hfaces
  obtain ⟨d', c', links', hadds', hreaches', hfaces'', hwritten''⟩ :=
    hnext hwritten' hfaces' hstop hcheck'
  refine ⟨d', c', links', ?_, reaches_of_child hkind hrest ht hreaches hreaches', hfaces'', ?_⟩
  · rw [hstatic, htext]
    exact (hmark.trans hadds fun _ => rfl).trans hadds' nofun
  · rw [hdenote, ← bind_assoc]
    exact hwritten''

theorem lowers_leaf (hnext : next.Lowers ctx env lib) : (Pattern.leaf l next).Lowers ctx env lib := by
  intro stop g before links s s' y d c rest hwritten hfaces hstop hcheck
  rw [Pattern.check] at hcheck
  split at hcheck
  · rename_i hleaf
    rw [Bool.and_eq_true, Bool.not_eq_true'] at hleaf
    obtain ⟨hl, hends⟩ := hleaf
    rw [Pattern.lexemes, List.cons_append] at hfaces
    obtain ⟨t, ts, hrest, ht, hfaces⟩ := Compilation.Faces.cons hfaces
    have hpast := hwritten.past hrest
    have hlength : c.reader.rest.length = (c.past t ts).reader.rest.length + 1 := by
      rw [hrest]
      rfl
    rw [denote_leaf, ← bind_assoc, hlength, isStatic, isText]
    by_cases hescape : l.kind = .escape
    · obtain ⟨d₁, hmark, hmarked⟩ := hpast.mark t.position
      obtain ⟨d₂, e, hprint, hok, hescaped⟩ := hmarked.escape hl hescape ht
      obtain ⟨d', c', links', hadds, hreaches, hfaces', hwritten'⟩ :=
        hnext hescaped hfaces hstop hcheck
      refine ⟨d', c', links', (hmark.trans hprint fun _ => rfl).trans hadds fun _ => rfl, ?_, hfaces',
        hwritten'⟩
      rw [← ht.kind] at hends hescape
      rw [resume_of_enter hends hrest (.inr (.inr ⟨hescape, rfl⟩))]
      refine .push ?_ hreaches
      have hresume : (Construct.escape t).resume ctx
          { c.past t ts with out := c.out.mark t.position } = .ok .done { c.past t ts with out := e } :=
        run_bind_of_ok hok
      rw [hresume]
      exact .done (Nat.le_refl _)
    · obtain ⟨d', c', links', hadds, hreaches, hfaces', hwritten'⟩ :=
        hnext (hpast.print l.prints) hfaces hstop hcheck
      refine ⟨d', c', links', (Adds.print c.out l.prints).trans hadds fun _ => rfl, ?_, hfaces', hwritten'⟩
      rw [resume_of_leaf hl hescape hends hrest ht]
      exact hreaches.mono (Nat.le_succ _)
  · cases hcheck

end Pattern

end

/-! ## Constants -/

namespace Pattern

variable {stop : Terminator} {s s' : Scoping} {stops : List Token.Kind} {rest : List Lexeme}

/-- A constant is read up to what ends it. -/
theorem plainUntil_of_constant (hstops : ∀ kind, stops.contains kind = stop.endsAt kind) {l : Lexeme}
    (hl : stop.endsAt l.kind = true) : ∀ {p : Pattern} {text : String}
    {ts : List Token}, p.constant? = some text → p.check stop s = some s' →
    List.Forall₂ Token.Is ts (p.lexemes ++ l :: rest) → ∀ last, ∃ last' us,
      Token.Reader.plainUntil stops last ts = some (text, last', us) ∧
        List.Forall₂ Token.Is us (l :: rest)
  | .nil, _, ts, hconstant, _, hfaces, last => by
    cases hconstant
    obtain ⟨t, us, ht, hus, rfl⟩ := List.forall₂_cons_right_iff.1 hfaces
    rw [← ht.kind, ← hstops] at hl
    refine ⟨last, t :: us, ?_, .cons ht hus⟩
    rw [Token.Reader.plainUntil, hl, if_pos rfl]
  | .leaf first next, _, ts, hconstant, hcheck, hfaces, last => by
    obtain ⟨hfirst, more, hmore, rfl⟩ := constant?_leaf hconstant
    rw [Pattern.check] at hcheck
    split at hcheck
    · rename_i hleaf
      rw [Bool.and_eq_true, Bool.not_eq_true'] at hleaf
      rw [Pattern.lexemes, List.cons_append] at hfaces
      obtain ⟨t, us, ht, hus, rfl⟩ := List.forall₂_cons_right_iff.1 hfaces
      obtain ⟨last', vs, hplain, hvs⟩ :=
        plainUntil_of_constant hstops hl hmore hcheck hus t.position
      have hends : stops.contains t.kind = false := by rw [ht.kind, hstops, hleaf.2]
      have hkind : (decide (t.kind = .literal) || t.kind.isPlain) = true := by
        rw [ht.kind]
        exact hfirst
      have hescape : first.kind ≠ .escape := by
        intro hescape
        rw [Lexeme.isConstant, hescape] at hfirst
        cases hfirst
      refine ⟨last', vs, ?_, hvs⟩
      rw [Token.Reader.plainUntil, hends, if_neg Bool.false_ne_true, if_pos hkind, hplain,
        ← ht.value hescape]
      rfl
    · cases hcheck

/-- What stands first is no part of a constant. -/
theorem plainUntil_of_opening {kind : Token.Kind} {ts : List Token}
    (hstops : stops.contains kind = false) (hkind : (decide (kind = .literal) || kind.isPlain) = false)
    (hfaces : List.Forall₂ Token.Is ts (.mark kind :: rest)) (last : Position) :
    Token.Reader.plainUntil stops last ts = none := by
  obtain ⟨t, us, ht, -, rfl⟩ := List.forall₂_cons_right_iff.1 hfaces
  have ht : t.kind = kind := ht.kind
  rw [Token.Reader.plainUntil, ht, hstops, hkind]
  rfl

theorem endsAt_opening (stop : Terminator) :
    stop.endsAt .leftSquare = false ∧ stop.endsAt .leftCurly = false := by
  cases stop <;> exact ⟨rfl, rfl⟩

/-- Nothing is read as a constant where something has to be run. -/
theorem plainUntil_of_none (hstops : ∀ kind, stops.contains kind = stop.endsAt kind) :
    ∀ {p : Pattern} {ts : List Token}, p.constant? = none →
    p.check stop s = some s' → List.Forall₂ Token.Is ts (p.lexemes ++ rest) → ∀ last,
      Token.Reader.plainUntil stops last ts = none
  | .leaf first next, ts, hconstant, hcheck, hfaces, last => by
    rw [Pattern.check] at hcheck
    split at hcheck
    · rename_i hleaf
      rw [Bool.and_eq_true, Bool.not_eq_true'] at hleaf
      rw [Pattern.lexemes, List.cons_append] at hfaces
      obtain ⟨t, us, ht, hus, rfl⟩ := List.forall₂_cons_right_iff.1 hfaces
      have hends : stops.contains t.kind = false := by rw [ht.kind, hstops, hleaf.2]
      rw [Token.Reader.plainUntil, hends, if_neg Bool.false_ne_true, ht.kind]
      rw [Pattern.constant?] at hconstant
      split at hconstant
      · rename_i hfirst
        rw [Option.map_eq_none_iff] at hconstant
        rw [plainUntil_of_none hstops hconstant hcheck hus]
        split <;> rfl
      · rename_i hfirst
        exact if_neg hfirst
    · cases hcheck
  | .block items next, ts, _, hcheck, hfaces, last => by
    have hends := (endsAt_opening stop).2
    rw [← hstops] at hends
    obtain ⟨hne, -⟩ := check_block hcheck
    cases items with
    | nil => exact absurd rfl hne
    | plain body more | weighted weight body more =>
      rw [Pattern.lexemes, Items.lexemes] at hfaces
      exact plainUntil_of_opening hends rfl hfaces last
  | .define .., ts, _, _, hfaces, last | .tag .., ts, _, _, hfaces, last => by
    have hends := (endsAt_opening stop).1
    rw [← hstops] at hends
    rw [Pattern.lexemes] at hfaces
    exact plainUntil_of_opening hends rfl hfaces last

end Pattern

namespace Compile.Compiling

variable {c : Compilation} {p : Pattern} {stop : Terminator} {s s' : Scoping}
  {stops : List Token.Kind} {rest : List Lexeme}

/-- A constant is read. -/
theorem constantUntil_of_constant (hstops : ∀ kind, stops.contains kind = stop.endsAt kind)
    {text : String} (hconstant : p.constant? = some text) (hcheck : p.check stop s = some s')
    {l : Lexeme} (hl : stop.endsAt l.kind = true) (hfaces : c.Faces (p.lexemes ++ l :: rest)) :
    ∃ r, constantUntil stops c = .ok (some text) { c with reader := r } ∧
      ({ c with reader := r } : Compilation).Faces (l :: rest) ∧ c.reader.Passes 0 r := by
  obtain ⟨last, us, hplain, hus⟩ :=
    Pattern.plainUntil_of_constant hstops hl hconstant hcheck hfaces c.reader.last
  refine ⟨{ c.reader with rest := us, last := last }, ?_, hus, ?_⟩
  · unfold constantUntil reading Token.Reading.constantUntil
    rw [hplain]
  · have hlength := hfaces.length
    have hleft : us.length = (l :: rest).length := List.Forall₂.length_eq hus
    rw [List.length_append] at hlength
    rw [Token.Reader.Passes]
    change us.length + 0 ≤ _
    omega

theorem constantUntil_of_none (hstops : ∀ kind, stops.contains kind = stop.endsAt kind)
    (hconstant : p.constant? = none) (hcheck : p.check stop s = some s')
    (hfaces : c.Faces (p.lexemes ++ rest)) : constantUntil stops c = .ok none c := by
  have hplain := Pattern.plainUntil_of_none hstops hconstant hcheck hfaces c.reader.last
  unfold constantUntil reading Token.Reading.constantUntil
  rw [hplain]

end Compile.Compiling

end Wordloom
