import Wordloom.Proofs.Correctness
import Wordloom.Proofs.Reachable

/-!
# Wordloom.Proofs.StaticText

Sources that say nothing but a text. All that such a source prints, token by token, is joined while it is
compiled, so that its program is one instruction that prints one string, and that is what a run puts out.
A text in quotes is such a source, whatever it holds.
-/

namespace Wordloom

/-! ## Joining -/

namespace Emitter

/-- The only instruction prints a text. -/
def printing (debug : Bool) (index : Std.TreeMap String Nat) (text : String) : Emitter where
  debug := debug
  code := (Instr.printString 0).encode.toArray
  strings := #[text]
  stringIndex := index
  uses := #[1]
  lastPrint := some ⟨0, 0⟩

/-- All that has been emitted prints `text`: there is nothing, or one instruction. -/
def Prints (debug : Bool) (text : String) (e : Emitter) : Prop :=
  e = { debug } ∧ text = "" ∨ ∃ index, Indexes index #[text] ∧ e = printing debug index text

namespace Prints

variable {debug : Bool} {text : String} {e : Emitter}

theorem start (debug : Bool) (s : String) : (({ debug } : Emitter).emitString .print s).Prints debug s := by
  have hempty : Indexes {} #[] := by simp [Indexes]
  have hindexes : Indexes (({} : Std.TreeMap String Nat).insert s 0) #[s] := hempty.push (by simp)
  refine .inr ⟨_, hindexes, ?_⟩
  rw [emitString_print_of_none _ _ rfl]
  simp [intern, emit, position, printing]

/-- What is printed next is joined. A text grows in place, unless nothing is added to it: then the
instruction is pointed at the same string again. -/
theorem join {index : Std.TreeMap String Nat} (h : Indexes index #[text]) (s : String) :
    ((printing debug index text).emitString .print s).Prints debug (text ++ s) := by
  right
  by_cases hs : s = ""
  · have hcode : overwrite (Instr.printString 0).encode.toArray 0 (Instr.printString 0).encode =
        (Instr.printString 0).encode.toArray := by decide
    have hfound : index[text]? = some 0 := (h text 0).2 rfl
    refine ⟨index, by rwa [hs, String.append_empty], ?_⟩
    simpa [hs, emitString, printing, extendPrint, intern, replaceAt, hfound,
      Std.TreeMap.contains_eq_isSome_getElem?] using hcode
  · have hnew : index[text ++ s]? = none := by
      rw [Option.eq_none_iff_forall_ne_some]
      intro i hi
      have hsame := (h _ _).1 hi
      cases i with
      | zero => exact hs (by simpa using (Option.some.inj hsame).symm)
      | succ i => simp at hsame
    refine ⟨_, h.replace (n := 0) rfl hnew, ?_⟩
    simp [emitString, printing, extendPrint, Std.TreeMap.contains_eq_isSome_getElem?, hnew]

theorem emitString (h : e.Prints debug text) (s : String) :
    (e.emitString .print s).Prints debug (text ++ s) := by
  obtain ⟨rfl, rfl⟩ | ⟨index, hindex, rfl⟩ := h
  · rw [String.empty_append]
    exact start debug s
  · exact join hindex s

theorem debug_eq (h : e.Prints debug text) : e.debug = debug := by
  obtain ⟨rfl, -⟩ | ⟨_, -, rfl⟩ := h <;> rfl

theorem position_lt (h : e.Prints debug text) : e.position < 2 ^ 31 := by
  obtain ⟨rfl, -⟩ | ⟨_, -, rfl⟩ := h
  · simp [position]
  · change (Instr.printString 0).encode.toArray.size < 2 ^ 31
    decide

/-- The program prints the same. -/
theorem build (h : e.Prints debug text) (name : String) :
    e.build name = { name, code := #[] } ∧ text = "" ∨
      e.build name =
        { name, code := (Instr.printString 0).encode.toArray, strings := #[text] } := by
  obtain ⟨rfl, rfl⟩ | ⟨_, -, rfl⟩ := h
  · left
    simp [Emitter.build, dropUnused, referenceNames, NameTable.empty]
  · right
    simp [Emitter.build, dropUnused, printing, referenceNames, NameTable.empty]

end Prints

end Emitter

/-! ## Tokens -/

namespace Token

/-- What a token means that stands for a fixed text in a pattern. -/
inductive Means : Token → String → Prop where
  | literal {t : Token} (h : t.kind = .literal) : Means t (unquote t.text)
  | escape {t : Token} {digits code : List Char} {text : String} (h : t.kind = .escape)
    (ht : t.text = String.ofList (Lexeme.escape digits code).chars)
    (htext : Lexeme.escaped? digits code = some text) : Means t text
  | verbatim {t : Token} (h : t.kind ∈ [.text, .blank, .regex] ∨ t.kind.isMark = true) :
    Means t t.text

/-- A token that is no escape is printed as it is. -/
theorem Means.eq_value {t : Token} {text : String} (h : t.Means text) (hkind : t.kind ≠ .escape) :
    t.kind.isPrinted = true ∧ text = t.value := by
  cases h with
  | literal h => simp [h, Kind.isPrinted, value]
  | escape h => exact absurd h hkind
  | verbatim h =>
    obtain ⟨kind, text, position⟩ := t
    cases kind <;> simp_all [Kind.isPrinted, Kind.isMark, value]

/-- An escape that is compiled prints its meaning. -/
theorem Means.escape_eq {t : Token} {text : String} (h : t.Means text) (hkind : t.kind = .escape) :
    Compile.escape t = if text = "" then pure () else .emitString .print text := by
  cases h with
  | literal h =>
    rw [h] at hkind
    cases hkind
  | escape h ht htext => exact Compile.escape_of_escaped ht htext
  | verbatim h => simp [hkind, Kind.isMark] at h

end Token

namespace Compile

variable (ctx : Context) {c : Compilation} {t : Token} {ts : List Token} {texts : List String}
  {debug : Bool} {s text : String}

/-- A pattern prints a token that means a text, and goes on behind it. -/
theorem reaches_of_means (ht : t.Means s) (hmarks : debug = true → t.kind ≠ .escape)
    (hrest : c.reader.rest = t :: ts) (hout : c.out.Prints debug text) :
    ∃ out : Emitter, out.Prints debug (text ++ s) ∧ ∀ c',
      Reaches ctx ts.length
          ((Construct.pattern .root).resume ctx { c.past t ts with out }) c' →
        Reaches ctx (ts.length + 1) ((Construct.pattern .root).resume ctx c) c' := by
  by_cases hkind : t.kind = .escape
  · have hmark : c.out.mark t.position = c.out := by
      have hdebug : c.out.debug = false := by
        rw [hout.debug_eq]
        simpa [hkind] using hmarks
      simp [Emitter.mark, hdebug]
    have hentered : (Construct.pattern .root).resume ctx c =
        .ok (.push (.pattern .root) (.escape t)) (c.past t ts) := by
      have hresume : (Construct.pattern .root).resume ctx c =
          .ok (.push (.pattern .root) (.escape t))
            { c.past t ts with out := c.out.mark t.position } :=
        Pattern.resume_of_enter rfl hrest (.inr (.inr ⟨hkind, rfl⟩))
      rwa [hmark] at hresume
    obtain ⟨out, hprints, hresume⟩ : ∃ out : Emitter, out.Prints debug (text ++ s) ∧
        (Construct.escape t).resume ctx (c.past t ts) = .ok .done { c.past t ts with out } := by
      rw [Construct.resume, ht.escape_eq hkind]
      by_cases hs : s = ""
      · exact ⟨c.out, by simpa [hs] using hout, by rw [if_pos hs]; rfl⟩
      · exact ⟨_, hout.emitString s, by rw [if_neg hs]; rfl⟩
    refine ⟨out, hprints, fun c' hreaches => ?_⟩
    rw [hentered]
    refine .push ?_ hreaches
    rw [hresume]
    exact .done (Nat.le_refl _)
  · obtain ⟨hprinted, rfl⟩ := ht.eq_value hkind
    refine ⟨_, hout.emitString t.value, fun c' hreaches => ?_⟩
    have hresume : (Construct.pattern .root).resume ctx c = (Construct.pattern .root).resume ctx
        { c.past t ts with out := c.out.emitString .print t.value } := by
      change Compile.pattern .root c.reader.rest c = Compile.pattern .root ts _
      rw [hrest, pattern_cons_of_printed hprinted rfl hrest]
    rw [hresume]
    exact hreaches.mono (Nat.le_succ _)

/-- A pattern of such tokens is compiled to the end of the source. -/
theorem reaches_of_forall_means (h : List.Forall₂ Token.Means ts texts)
    (hmarks : debug = true → ∀ t ∈ ts, t.kind ≠ .escape) (hrest : c.reader.rest = ts)
    (hout : c.out.Prints debug text) :
    ∃ c', Reaches ctx ts.length ((Construct.pattern .root).resume ctx c) c' ∧
      c'.out.Prints debug (text ++ String.join texts) := by
  induction h generalizing c text with
  | nil =>
    have hresume : (Construct.pattern .root).resume ctx c = .ok .done c := by
      change Compile.pattern .root c.reader.rest c = _
      rw [hrest]
      rfl
    refine ⟨c, ?_, by simpa using hout⟩
    rw [hresume]
    exact .done (by simp [hrest])
  | @cons t s ts texts ht hts ih =>
    obtain ⟨out, hprints, hreaches⟩ := reaches_of_means ctx ht
      (fun hdebug => hmarks hdebug t List.mem_cons_self) hrest hout
    obtain ⟨c', hreaches', hprints'⟩ := ih (c := { c.past t ts with out })
      (fun hdebug u hu => hmarks hdebug u (List.mem_cons_of_mem t hu)) rfl hprints
    refine ⟨c', hreaches c' hreaches', ?_⟩
    rwa [String.join_cons, ← String.append_assoc]

end Compile

/-! ## Runs -/

section

variable {env : Environment} {seed : UInt64}

/-- A run is over where the code of the outermost frame ends. -/
theorem Machine.run_at_end {m : Machine} (hend : m.frame.program.code.size ≤ m.frame.position)
    (hcallers : m.callers = []) (steps : Nat) :
    m.run env seed (steps + 1) = .output (m.root.finish seed) := by
  have hstep : Running.step env m = .ok .finished (Running.dropFrameState m).2 := by
    simp only [Running.step, run_bind, run_get, if_pos hend, Running.leave, Running.dropFrameState,
      hcallers]
    rfl
  rw [Machine.run, hstep]
  rfl

/-- Without limits, a string is printed to the output of the run. -/
theorem Running.step_of_printString (env : Environment) {m : Machine} {index : Int32}
    {position : Nat} {text : String}
    (hdecode : Instr.decodeAt m.frame.program.code m.frame.position = .ok (.printString index, position))
    (hlt : m.frame.position < m.frame.program.code.size)
    (hstring : m.frame.program.string? index = some text) (hnested : m.nested = [])
    (htimeout : env.options.timeout = none) (hlimit : env.options.charLimit = none) :
    ∃ m', step env m = .ok .running m' ∧ m'.frame = { m.frame with position } ∧
      m'.callers = m.callers ∧ m'.root = m.root.edit (.print text) := by
  have hread : string index (m.fetched position) = .ok text (m.fetched position) := by
    simp only [string, run_bind, run_get, Machine.fetched, hstring]
    rfl
  have hprint : print env.options text (m.fetched position) = .ok ()
      { m.fetched position with
        charsPrinted := m.charsPrinted + text.length
        root := m.root.edit (.print text) } := by
    simp only [print, run_bind, run_get, run_set, run_modify, Machine.fetched, hnested, hlimit,
      Machine.onWriter, List.isEmpty_nil, if_true]
  have hstep : step env m = .ok .running
      { m.fetched position with
        charsPrinted := m.charsPrinted + text.length
        root := m.root.edit (.print text) } := by
    rw [step_of_decode env hdecode hlt, if_neg (by simp [Environment.isLate, htimeout])]
    simp only [execute]
    rw [run_bind_of_ok hread, run_bind_of_ok hprint]
    rfl
  exact ⟨_, hstep, rfl, rfl, rfl⟩

/-- A program without code puts out nothing. -/
theorem Engine.run_empty (e : Engine) (name : String) (seed : UInt64) :
    e.run { name, code := #[] } seed {} = .output ⟨seed, [⟨mainChannel, .visible, ""⟩]⟩ := by
  have hsteps : stepLimit = (stepLimit - 1) + 1 := by decide
  rw [Engine.run, Program.run, hsteps, Machine.run_at_end (Nat.zero_le _) rfl]
  exact congrArg (fun channels => Outcome.output ⟨seed, channels⟩) (Writer.channels_plain "")

/-- A program that prints one string puts it out. -/
theorem Engine.run_printing (e : Engine) (name text : String) (seed : UInt64) :
    e.run { name, code := (Instr.printString 0).encode.toArray, strings := #[text] } seed {} =
      .output ⟨seed, [⟨mainChannel, .visible, text⟩]⟩ := by
  have hsteps : stepLimit = (stepLimit - 2) + 1 + 1 := by decide
  have hdecode : Instr.decodeAt (Instr.printString 0).encode.toArray 0 =
      .ok (.printString 0, (Instr.printString 0).encode.toArray.size) :=
    Instr.decodeAt_of_drop (List.append_nil _).symm
  have hlt : 0 < (Instr.printString 0).encode.toArray.size := by decide
  obtain ⟨m, hstep, hframe, hcallers, hroot⟩ := Running.step_of_printString (e.environment {})
    (m := .start {} { name, code := (Instr.printString 0).encode.toArray, strings := #[text] } seed)
    hdecode hlt rfl rfl rfl rfl
  have hplain : m.root = .plain text := by
    rw [hroot]
    exact (Writer.edit_plain "" text).trans (by rw [String.empty_append])
  have hend : m.frame.program.code.size ≤ m.frame.position := by
    rw [hframe]
    exact Nat.le_refl _
  rw [Engine.run, Program.run, hsteps, Machine.run]
  simp only [Engine.environment] at hstep ⊢
  rw [hstep]
  dsimp only
  rw [Machine.run_at_end hend hcallers, hplain, Writer.finish, Writer.channels_plain]

end

/-! ## Sources -/

/-- A source of which each token means a text is compiled to a program that prints these texts. -/
theorem Compile.compile_of_means (ctx : Context) {source : String} {texts : List String}
    (h : List.Forall₂ Token.Means (Token.scan source) texts)
    (hmarks : ctx.debug = true → ∀ t ∈ Token.scan source, t.kind ≠ .escape) (name : String) :
    ∃ out : Emitter, out.Prints ctx.debug (String.join texts) ∧
      Compile.compile ctx name source = .ok (out.build name) := by
  have hstart : (Compilation.start ctx source).out.Prints ctx.debug "" := .inl ⟨rfl, rfl⟩
  obtain ⟨c', ⟨n, hfinishes, hn⟩, hprints⟩ := reaches_of_forall_means ctx h hmarks rfl hstart
  rw [String.empty_append] at hprints
  obtain ⟨hsize, -⟩ | ⟨-, hsource⟩ := source_of_finishes hfinishes (by
    have hrest : (Compilation.start ctx source).reader.rest = Token.scan source := rfl
    rw [hrest]
    omega)
  · exact absurd hprints.position_lt (Nat.not_lt.2 hsize)
  · exact ⟨c'.out, hprints, by rw [Compile.compile, hsource]⟩

/-- What is emitted for a text prints it when it is run. -/
theorem Emitter.Prints.run {debug : Bool} {text : String} {out : Emitter} (h : out.Prints debug text)
    (e : Engine) (name : String) (seed : UInt64) :
    e.run (out.build name) seed {} = .output ⟨seed, [⟨mainChannel, .visible, text⟩]⟩ := by
  obtain ⟨hbuild, rfl⟩ | hbuild := h.build name
  · rw [hbuild, Engine.run_empty]
  · rw [hbuild, Engine.run_printing]

/-- **Static text is one print.** If each token of a source means a fixed text, the source is compiled to
a program that has at most one instruction and the joined text as its only string, and that is what a run
puts out. -/
theorem Engine.compile_static (e : Engine) (name : String) {source : String} {texts : List String}
    (h : List.Forall₂ Token.Means (Token.scan source) texts) :
    ∃ p, e.compile name source false = .ok p ∧
      (p = { name, code := #[] } ∧ String.join texts = "" ∨
        p = { name, code := (Instr.printString 0).encode.toArray, strings := #[String.join texts] }) ∧
      ∀ seed, e.run p seed {} = .output ⟨seed, [⟨mainChannel, .visible, String.join texts⟩]⟩ := by
  have hmarks : false = true → ∀ t ∈ Token.scan source, t.kind ≠ .escape := fun hfalse =>
    absurd hfalse Bool.false_ne_true
  obtain ⟨out, hprints, hcompile⟩ := Compile.compile_of_means
    { debug := false, registry := e.registry, imports := e.programs } h hmarks name
  exact ⟨_, hcompile, hprints.build name, hprints.run e name⟩

/-- Two literals, an escape that is repeated and one that stands for nothing, and between them a blank, a
regular expression and punctuation. -/
def mixedText : String := "\"a\"\"b\"\\3,!\\0,n //x y//i::\"\""

theorem Engine.compile_static_mixed : ∃ texts p,
    List.Forall₂ Token.Means (Token.scan mixedText) texts ∧
      ({} : Engine).compile "main" mixedText false = .ok p ∧
      ({} : Engine).run p 7 {} =
        .output ⟨7, [⟨mainChannel, .visible, "a\"b!!! //x y//i::"⟩]⟩ := by
  have hscan : Token.scan mixedText =
      [⟨.literal, "\"a\"\"b\"", ⟨1, 1, 0⟩⟩, ⟨.escape, "\\3,!", ⟨1, 7, 6⟩⟩,
        ⟨.escape, "\\0,n", ⟨1, 11, 10⟩⟩, ⟨.blank, " ", ⟨1, 15, 14⟩⟩,
        ⟨.regex, "//x y//i", ⟨1, 16, 15⟩⟩, ⟨.doubleColon, "::", ⟨1, 24, 23⟩⟩,
        ⟨.literal, "\"\"", ⟨1, 26, 25⟩⟩] := by decide +kernel
  have hmeans : List.Forall₂ Token.Means (Token.scan mixedText)
      [Token.unquote "\"a\"\"b\"", "!!!", "", " ", "//x y//i", "::", Token.unquote "\"\""] := by
    rw [hscan]
    refine .cons (.literal rfl) (.cons ?_ (.cons ?_ (.cons ?_ (.cons ?_ (.cons ?_ (.cons (.literal rfl)
      .nil))))))
    · exact @Token.Means.escape _ ['3'] ['!'] _ rfl (by decide +kernel) (by decide +kernel)
    · exact @Token.Means.escape _ ['0'] ['n'] _ rfl (by decide +kernel) (by decide +kernel)
    · exact .verbatim (by decide)
    · exact .verbatim (by decide)
    · exact .verbatim (by decide)
  have hjoin : String.join
      [Token.unquote "\"a\"\"b\"", "!!!", "", " ", "//x y//i", "::", Token.unquote "\"\""] =
        "a\"b!!! //x y//i::" := by decide +kernel
  obtain ⟨p, hcompile, -, hrun⟩ := compile_static {} "main" hmeans
  exact ⟨_, p, hmeans, hcompile, by rw [hrun, hjoin]⟩

/-! ## Quotes -/

namespace Token

/-- A text between quotes, each quote in it written twice. -/
def quote (s : String) : String := String.ofList ('"' :: double s.toList ++ ['"'])

theorem unquote_quote (s : String) : unquote (quote s) = s := by
  rw [quote, unquote_double, String.ofList_toList]

/-- A text in quotes is one token. -/
theorem scan_quote (s : String) : scan (quote s) = [⟨.literal, quote s, .start⟩] := by
  have hcut : cut '"' (double s.toList ++ ['"']) = ⟨.literal, double s.toList ++ ['"'], []⟩ :=
    splitLiteral_double s.toList (by simp)
  rw [scan, quote, String.toList_ofList, List.cons_append, scanFrom, hcut, scanFrom]

end Token

/-- **Quoting is complete.** Whatever a text holds, in quotes it is one literal that stands for it, and it
is printed as it is. -/
theorem Engine.compile_quote (s : String) :
    Token.scan (Token.quote s) = [⟨.literal, Token.quote s, .start⟩] ∧
      Token.unquote (Token.quote s) = s ∧
      ∀ (e : Engine) (name : String) (debug : Bool),
        ∃ p, e.compile name (Token.quote s) debug = .ok p ∧
          ∀ seed, e.run p seed {} = .output ⟨seed, [⟨mainChannel, .visible, s⟩]⟩ := by
  have hscan := Token.scan_quote s
  refine ⟨hscan, Token.unquote_quote s, fun e name debug => ?_⟩
  have hmeans : List.Forall₂ Token.Means (Token.scan (Token.quote s)) [s] := by
    rw [hscan]
    have hliteral : Token.Means ⟨.literal, Token.quote s, .start⟩ (Token.unquote (Token.quote s)) :=
      .literal rfl
    rw [Token.unquote_quote] at hliteral
    exact .cons hliteral .nil
  have hmarks : debug = true → ∀ t ∈ Token.scan (Token.quote s), t.kind ≠ .escape := by
    simp [hscan]
  obtain ⟨out, hprints, hcompile⟩ := Compile.compile_of_means
    { debug, registry := e.registry, imports := e.programs } hmeans hmarks name
  rw [String.join_cons, String.join_nil, String.append_empty] at hprints
  exact ⟨_, hcompile, hprints.run e name⟩

end Wordloom
