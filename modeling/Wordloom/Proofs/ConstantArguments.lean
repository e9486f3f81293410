import Wordloom.Proofs.Checks
import Wordloom.Proofs.Draft
import Wordloom.Proofs.Evaluation
import Wordloom.Proofs.Printing
import Wordloom.Proofs.Readings

/-!
# Wordloom.Proofs.ConstantArguments

An argument that is taken as a text is pushed at once where it is constant, and otherwise printed to
an output of its own, whose text is pushed. An output capitalizes what is printed to it, so that the
same argument comes to two texts, which agree where the capitalization of the run leaves it alone.
-/

namespace Wordloom

/-! ## Lines that push a value -/

variable {env : Environment} {p : Program} {w w' : World} {c : Control} {m : Machine} {position : Nat}

theorem Ends.leads {α : Type} {x : α} {Q : α → World → Machine → Prop}
    (h : Ends env (.ok (x, w)) Q m) : Leads env (Q x w) Fault.Cuts m := by
  refine Leads.trans h ?_ ?_
  · rintro f (hf | ⟨-, hf⟩)
    · exact hf
    · cases hf
  · rintro m' ⟨_, _, ⟨⟩, hm'⟩
    exact .here hm'

/-- Lines that push a value and change nothing else, unless the stack is full or the time is up. -/
def Puts (env : Environment) (ls : List Line) (v : Value) : Prop :=
  ∀ ⦃p : Program⦄ ⦃position : Nat⦄ ⦃w : World⦄ ⦃c : Control⦄ ⦃m : Machine⦄, p.Has position ls →
    c.frame.program = p → m.At w c position →
    Leads env (Machine.At w (c.pushAll [v]) (position + Line.sizes ls)) Fault.Cuts m

theorem puts_text (env : Environment) (text : String) :
    Puts env [.text .push text] (.string text) := by
  intro p position w c m hhas hprogram hm
  have hends : Ends env (.ok ((), w))
      (fun _ w' => Machine.At w' (c.pushAll [.string text]) (position + 5)) m :=
    Ends.pushText hm hhas hprogram fun _ hm => Ends.here hm
  exact hends.leads

/-- A mark of a place in the source. -/
def Line.IsMark : Line → Prop
  | .plain (.debug ..) => True
  | _ => False

/-- Marks have no effect. -/
theorem Ends.marks {α : Type} {result : Except Fault (α × World)} {Q : α → World → Machine → Prop}
    {marks ls : List Line} (hmarks : ∀ l ∈ marks, l.IsMark) (hm : m.At w c position)
    (hhas : p.Has position (marks ++ ls)) (hprogram : c.frame.program = p)
    (h : ∀ m, m.At w c (position + Line.sizes marks) → Ends env result Q m) : Ends env result Q m := by
  induction marks generalizing position m with
  | nil => exact h m hm
  | cons l marks ih =>
    match l, hmarks l List.mem_cons_self with
    | .plain (.debug line column offset), _ =>
      refine Ends.plain (Running.markPlace line column) hm hhas hprogram rfl fun t => ?_
      refine ih (fun l hl => hmarks l (List.mem_cons_of_mem _ hl))
        ⟨{ t with marker := some ⟨t.current.program.id, _, _⟩ }, rfl⟩ hhas.tail_plain ?_
      intro m hm
      rw [Line.sizes_cons, ← Nat.add_assoc] at h
      exact h m hm

/-- What is printed to an output for captured text is not counted. -/
theorem print_capturing (options : Options) (text : String) (t : Trace) :
    Running.print options text (.of w' (c.capturing w) position t) =
      .ok () (.of (w'.onWriter (·.edit (.print text))) (c.capturing w) position t) := by
  have hnested : (Machine.of w' (c.capturing w) position t).nested.isEmpty = false := by
    cases houter : c.outer <;> simp [Machine.of, Control.capturing, houter]
  rw [Running.print, run_bind_of_ok (run_get _), hnested, if_neg Bool.false_ne_true]
  exact congrArg (EStateM.Result.ok ()) (onWriter_of _)

/-- A text that is printed, if there is one. -/
def Line.printed (text : Option String) : List Line := (text.map (Line.text .print)).toList

theorem Ends.printed {text : Option String} (hm : m.At w' (c.capturing w) position)
    (hhas : p.Has position (Line.printed text)) (hprogram : c.frame.program = p) :
    Ends env (.ok ((), w'.onWriter (·.edit (.print (text.getD "")))))
      (fun _ w'' => Machine.At w'' (c.capturing w) (position + Line.sizes (Line.printed text))) m := by
  cases text with
  | none => exact Ends.here hm
  | some text =>
    have hprogram : (c.capturing w).frame.program = p := hprogram
    refine Ends.text (fun n => do Running.print env.options (← Running.string n)) hm hhas hprogram
      (fun _ => by simp [Running.execute, StringUse.instr]) fun n t hn => ?_
    rw [run_bind_of_ok (string_of hprogram hn)]
    exact Goes.of_ends (print_capturing env.options text t) (Ends.here ⟨t, rfl⟩)

/-- A text that is captured is capitalized. -/
theorem puts_capture (env : Environment) {marks : List Line} (hmarks : ∀ l ∈ marks, l.IsMark)
    (text : Option String) :
    Puts env (.plain .newOutput :: (marks ++ Line.printed text ++ [.plain .returnOutput]))
      (.string (env.options.capitals.apply (text.getD ""))) := by
  intro p position w c m hhas hprogram hm
  have hbody := hhas.tail_plain
  have hcaptured : Evaluating.capture env.options
      (fun w => .ok ((), w.onWriter (·.edit (.print (text.getD ""))))) w =
        .ok (env.options.capitals.apply (text.getD ""), w) := by
    rw [← Writer.mainText_print]
    rfl
  have hends : Ends env (Evaluating.capture env.options
      (fun w => .ok ((), w.onWriter (·.edit (.print (text.getD ""))))) w)
      (fun s w' => Machine.At w' (c.pushAll [.string s])
        (position + 1 + Line.sizes (marks ++ Line.printed text) + 1)) m := by
    refine Ends.capture hm hhas hbody.right hprogram fun w' m hm => ?_
    refine Ends.marks hmarks hm hbody.left hprogram fun m hm => ?_
    rw [Line.sizes_append, ← Nat.add_assoc]
    exact Ends.printed hm hbody.left.right hprogram
  rw [hcaptured] at hends
  have hsize : position + Line.sizes (.plain .newOutput :: (marks ++ Line.printed text ++
      [.plain .returnOutput])) = position + 1 + Line.sizes (marks ++ Line.printed text) + 1 := by
    rw [Line.sizes_cons, Line.sizes_append _ [_], ← Nat.add_assoc, ← Nat.add_assoc]
    rfl
  rw [hsize]
  exact hends.leads

/-! ## Arguments -/

namespace Compile

open Compiling

variable {ctx : Context} {e : Emitter} {ls : List Line}

/-- An escape that stands for no characters. -/
def IsEmptyEscape (t : Token) : Prop :=
  t.kind = .escape ∧ ∃ char, Escape.ofText? t.text = some (0, .char char)

/-- The same with other tokens to read. -/
def Compilation.reading (c : Compilation) (ts : List Token) : Compilation :=
  { c with reader := { c.reader with rest := ts } }

/-- Texts that are printed one after the other, as one. -/
def joined (texts : List String) : Option String :=
  texts.foldl (fun text s => some (text.getD "" ++ s)) none

theorem foldl_joined (text : Option String) (texts : List String) :
    (texts.foldl (fun text s => some (text.getD "" ++ s)) text).getD "" =
      text.getD "" ++ String.join texts := by
  induction texts generalizing text with
  | nil => simp
  | cons s texts ih =>
    rw [List.foldl_cons, ih, String.join_cons, Option.getD_some, String.append_assoc]

theorem getD_joined (texts : List String) : (joined texts).getD "" = String.join texts :=
  (foldl_joined none texts).trans (String.empty_append)

theorem follows_foldl_print {s : Script} (h : e.Follows s) (texts : List String) :
    (texts.foldl (·.emitString .print ·) e).Follows
      { s with pending := texts.foldl (fun text s => some (text.getD "" ++ s)) s.pending } := by
  induction texts generalizing e s with
  | nil => exact h
  | cons text texts ih => exact ih (h.emitString .print text)

/-- Texts that are printed behind something that nothing is joined to. -/
theorem spells_foldl_print (h : e.Ended ls) (texts : List String) :
    (texts.foldl (·.emitString .print ·) e).Spells (ls ++ Line.printed (joined texts)) :=
  ⟨_, follows_foldl_print h texts, rfl⟩

theorem ended_mark (h : e.Ended ls) (p : Position) :
    ∃ marks, (∀ l ∈ marks, l.IsMark) ∧ (e.mark p).Ended (ls ++ marks) := by
  unfold Emitter.mark
  split
  · exact ⟨[.mark p], by simp [Line.mark, Line.IsMark], h.spells.emit rfl⟩
  · exact ⟨[], by simp, by simpa using h⟩

section

variable {c : Compilation} {ts us : List Token} {sep : Token}

theorem pattern_cons_of_constant {u : Token} (hu : u.isConstant = true) (h : c.reader.rest = u :: ts) :
    pattern .argument (u :: ts) c =
      pattern .argument ts { c.past u ts with out := c.out.emitString .print u.value } := by
  have hstop : Terminator.argument.endsAt u.kind = false := by
    have hne := stops_of_isConstant hu
    simpa [Terminator.endsAt] using hne
  have hprinted : u.kind.isPrinted = true := by
    unfold Token.isConstant at hu
    cases hkind : u.kind <;> rw [hkind] at hu <;> first | rfl | cases hu
  exact pattern_cons_of_printed hprinted hstop h

/-- Constant tokens are printed as they stand. -/
theorem pattern_of_constant (h : c.reader.rest = ts ++ sep :: us)
    (hts : ∀ u ∈ ts, u.isConstant = true) (hsep : sep.kind = .semicolon ∨ sep.kind = .rightSquare) :
    ∃ last, pattern .argument (ts ++ sep :: us) c = .ok .done
      { c with
        reader := { c.reader with rest := sep :: us, last := last }
        out := (ts.map (·.value)).foldl (·.emitString .print ·) c.out } := by
  induction ts generalizing c with
  | nil =>
    have hends : Terminator.argument.endsAt sep.kind = true := by
      obtain hsep | hsep := hsep <;> rw [hsep] <;> rfl
    have hrest : sep :: us = c.reader.rest := h.symm
    refine ⟨c.reader.last, ?_⟩
    rw [List.nil_append, pattern, hends, if_pos rfl, hrest]
    rfl
  | cons u ts ih =>
    obtain ⟨last, hrest⟩ := ih (c := { c.past u (ts ++ sep :: us) with out := c.out.emitString .print u.value })
      rfl (fun v hv => hts v (List.mem_cons_of_mem _ hv))
    exact ⟨last, (pattern_cons_of_constant (hts u List.mem_cons_self) h).trans hrest⟩

/-- An escape that stands for nothing leaves at most a mark. -/
theorem completes_emptyEscape {u : Token} (hu : IsEmptyEscape u) (h : c.reader.rest = u :: ts)
    {c' : Compilation}
    (hrest : Completes ctx (.pattern .argument)
      { c.past u ts with out := c.out.mark u.position } c') :
    Completes ctx (.pattern .argument) c c' := by
  obtain ⟨hkind, char, hchar⟩ := hu
  have hpattern : Construct.resume ctx (.pattern .argument) c =
      .ok (.push (.pattern .argument) (.escape u))
        { c.past u ts with out := c.out.mark u.position } := by
    change pattern .argument c.reader.rest c = _
    rw [h, pattern, hkind, if_neg (by simp [Terminator.endsAt]), run_bind_of_ok (read_of_rest h)]
    rfl
  have hescape : ∀ c, Construct.resume ctx (.escape u) c = .ok .done c := by
    intro c
    change (escape u >>= _) c = _
    unfold escape
    rw [hchar]
    rfl
  exact .push hpattern (.done (hescape _)) hrest

/-- Escapes that stand for nothing, and then constant tokens. -/
theorem completes_constant {escapes : List Token} (h : c.reader.rest = escapes ++ (ts ++ sep :: us))
    (hescapes : ∀ u ∈ escapes, IsEmptyEscape u) (hts : ∀ u ∈ ts, u.isConstant = true)
    (hsep : sep.kind = .semicolon ∨ sep.kind = .rightSquare) (hended : c.out.Ended ls) :
    ∃ c' marks, Completes ctx (.pattern .argument) c c' ∧ c'.reader.rest = sep :: us ∧
      (∀ l ∈ marks, l.IsMark) ∧
      c'.out.Spells (ls ++ (marks ++ Line.printed (joined (ts.map (·.value))))) := by
  induction escapes generalizing c ls with
  | nil =>
    obtain ⟨last, hpattern⟩ := pattern_of_constant h hts hsep
    have hresume : Construct.resume ctx (.pattern .argument) c = _ :=
      (congrArg (pattern .argument · c) h).trans hpattern
    exact ⟨_, [], .done hresume, rfl, nofun, spells_foldl_print hended (ts.map (·.value))⟩
  | cons u escapes ih =>
    obtain ⟨marks, hmarks, hmarked⟩ := ended_mark hended u.position
    obtain ⟨c', more, hcompletes, hrest, hmore, hspells⟩ := ih
      (c := { c.past u (escapes ++ (ts ++ sep :: us)) with out := c.out.mark u.position }) rfl
      (fun v hv => hescapes v (List.mem_cons_of_mem _ hv)) hmarked
    refine ⟨c', marks ++ more, completes_emptyEscape (hescapes u List.mem_cons_self) h hcompletes, hrest,
      ?_, ?_⟩
    · intro l hl
      exact (List.mem_append.1 hl).elim (hmarks l) (hmore l)
    · simpa using hspells

/-- An argument that does not begin with a constant token is captured. -/
theorem OpenTag.beginArgument_of_emptyEscape {t : OpenTag} {u : Token} (hmax : t.index < t.tag.max)
    (hmode : t.tag.mode t.index = .captured) (hu : IsEmptyEscape u) (h : c.reader.rest = u :: ts) :
    t.beginArgument c = .ok (t, some .capture) { c with out := c.out.emit .newOutput } := by
  have hconstant : constantUntil [.semicolon, .rightSquare] c = .ok none c := by
    unfold constantUntil reading Token.Reading.constantUntil
    rw [h, Token.Reader.plainUntil, hu.1]
    rfl
  unfold beginArgument
  rw [if_neg (by omega)]
  simp only [hmode]
  change (constantUntil [.semicolon, .rightSquare] >>= _) c = _
  rw [run_bind_of_ok hconstant]
  rfl

/-- An argument is captured: it is compiled as a pattern between the instructions that open an output
and push its text. -/
def Captures (ctx : Context) (c c' : Compilation) : Prop :=
  ∃ c₁, Completes ctx (.pattern .argument) { c with out := c.out.emit .newOutput } c₁ ∧
    OpenTag.afterArgument .capture c₁ = .ok () c'

/-- A constant argument, pushed at once or captured as it is if an empty escape stands before it: the
lines of both push a text and do nothing else. The captured one has the capitalization of the run. -/
theorem OpenTag.capture_of_constant {t : OpenTag} {escapes : List Token} (hmax : t.index < t.tag.max)
    (hmode : t.tag.mode t.index = .captured) (hspells : c.out.Spells ls)
    (hescapes : ∀ u ∈ escapes, IsEmptyEscape u) (hts : ∀ u ∈ ts, u.isConstant = true)
    (hsep : sep.kind = .semicolon ∨ sep.kind = .rightSquare) :
    ∃ pushed captured pushing capturing,
      t.beginArgument (c.reading (ts ++ sep :: us)) = .ok (t, none) pushed ∧
      pushed.reader.rest = sep :: us ∧ pushed.out.Spells (ls ++ pushing) ∧
      (escapes ≠ [] → t.beginArgument (c.reading (escapes ++ (ts ++ sep :: us))) =
        .ok (t, some .capture) { c.reading (escapes ++ (ts ++ sep :: us)) with
          out := c.out.emit .newOutput }) ∧
      Captures ctx (c.reading (escapes ++ (ts ++ sep :: us))) captured ∧
      captured.reader.rest = sep :: us ∧ captured.out.Spells (ls ++ capturing) ∧
      ∀ env : Environment,
        Puts env pushing (.string (String.join (ts.map (·.value)))) ∧
        Puts env capturing
          (.string (env.options.capitals.apply (String.join (ts.map (·.value))))) ∧
        (env.options.capitals = .none → env.options.capitals.apply
          (String.join (ts.map (·.value))) = String.join (ts.map (·.value))) := by
  obtain ⟨last, hpushed⟩ := beginArgument_of_constant (c := c.reading (ts ++ sep :: us)) hmax hmode rfl
    hts hsep
  obtain ⟨c₁, marks, hcompletes, hrest, hmarks, hbody⟩ := @completes_constant ctx _
     { c.reading (escapes ++ (ts ++ sep :: us)) with out := c.out.emit .newOutput } _ _ _ _ rfl hescapes
    hts hsep (hspells.emit rfl)
  have hpushing := (hspells.emitString (nofun : StringUse.push ≠ .print)
    (String.join (ts.map (·.value)))).spells
  have hcapturing := (hbody.emit (i := .returnOutput) rfl).spells
  refine ⟨_, { c₁ with out := c₁.out.emit .returnOutput }, [.text .push _],
    .plain .newOutput :: (marks ++ Line.printed (joined (ts.map (·.value))) ++ [.plain .returnOutput]),
    hpushed, rfl, hpushing, ?_, ⟨c₁, hcompletes, rfl⟩, hrest, ?_, ?_⟩
  · intro hne
    obtain ⟨u, escapes, rfl⟩ := List.exists_cons_of_ne_nil hne
    exact beginArgument_of_emptyEscape hmax hmode (hescapes u List.mem_cons_self) rfl
  · simpa using hcapturing
  · intro env
    have hcaptured := puts_capture env hmarks (joined (ts.map (·.value)))
    rw [getD_joined] at hcaptured
    refine ⟨puts_text env _, hcaptured, fun hnone => ?_⟩
    rw [hnone, Capitals.apply, Capitalizer.apply_of_none rfl]

end

/-- The argument of `rev`. -/
def revTag : OpenTag := { tag := ⟨"rev", .native 0 [.text], 1, 1⟩, start := .start }

/-- With `first`, the argument `abc` is pushed as it stands and captured with a capital. -/
theorem OpenTag.capture_of_constant_rev :
    revTag.tag.mode 0 = .captured ∧ IsEmptyEscape ⟨.escape, "\\0,s", .start⟩ ∧
      ∃ captured pushing capturing,
        Captures { registry := Standard.registry }
          ((Compilation.start { registry := Standard.registry } "").reading
            [⟨.escape, "\\0,s", .start⟩, ⟨.text, "abc", .start⟩, ⟨.rightSquare, "]", .start⟩]) captured ∧
        captured.out.Spells capturing ∧
        Puts (({} : Engine).environment { capitals := .first }) pushing (.string "abc") ∧
        Puts (({} : Engine).environment { capitals := .first }) capturing (.string "Abc") := by
  have hempty : IsEmptyEscape ⟨.escape, "\\0,s", .start⟩ := ⟨rfl, ' ', by decide⟩
  obtain ⟨-, captured, pushing, capturing, -, -, -, -, hcaptures, -, hcapturing, hputs⟩ :=
    @OpenTag.capture_of_constant { registry := Standard.registry } []
      (.start { registry := Standard.registry } "") [⟨.text, "abc", .start⟩] []
      ⟨.rightSquare, "]", .start⟩ revTag [⟨.escape, "\\0,s", .start⟩] (by decide) rfl
      (Emitter.Ended.spells (Emitter.follows_empty false)) (by simpa using hempty) (by decide) (.inr rfl)
  obtain ⟨hpushed, hcaptured, -⟩ := hputs (({} : Engine).environment { capitals := .first })
  exact ⟨rfl, hempty, captured, pushing, capturing, hcaptures, hcapturing, hpushed, hcaptured⟩

end Compile

/-- So the same argument is turned around to another text when it is captured. -/
theorem Engine.rev_of_captured :
    ∃ p q o o', ({} : Engine).compile "main" "[rev:abc]" false = .ok p ∧
      ({} : Engine).compile "main" "[rev:\\0,sabc]" false = .ok q ∧
      ({} : Engine).run p 0 { capitals := .first } = .output o ∧
      ({} : Engine).run q 0 { capitals := .first } = .output o' ∧
      o.main = "Cba" ∧ o'.main = "CbA" := by
  obtain ⟨p, o, hp, ho, htext⟩ :=
    exists_output {} "[rev:abc]" false 0 { capitals := .first } "Cba" (by decide +kernel)
  obtain ⟨q, o', hq, ho', htext'⟩ :=
    exists_output {} "[rev:\\0,sabc]" false 0 { capitals := .first } "CbA" (by decide +kernel)
  exact ⟨p, q, o, o', hp, hq, ho, ho', htext, htext'⟩

end Wordloom
