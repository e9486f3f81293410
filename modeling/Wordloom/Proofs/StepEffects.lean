import Wordloom.Proofs.Emissions
import Wordloom.Proofs.Lowering

/-!
# Wordloom.Proofs.StepEffects

What a step does to the code and to the names in scope. Each token is worth ten instructions, which pay
for what is emitted when it is read; beyond that, a construct emits no more than two instructions each
time it is gone on with. So the size of the code is linear in that of the source. The names change at
most once in a step: where a tag is performed, at its end, or where a subroutine is entered.
-/

namespace Wordloom

namespace Compile

variable {ctx : Context} {α β : Type} {c c' : Compilation}

/-- The size of the code so far, and what the tokens that are left are worth. -/
def Compilation.budget (c : Compilation) : Nat := c.out.position + 130 * c.reader.rest.length

/-- Tokens have been read and code has been emitted; the names in scope are the same. -/
def Compilation.SameNames (c c' : Compilation) : Prop :=
  ∃ r out, c' = { c with reader := r, out := out }

theorem Compilation.SameNames.refl (c : Compilation) : c.SameNames c := ⟨c.reader, c.out, rfl⟩

theorem Compilation.SameNames.trans {c'' : Compilation} (h : c.SameNames c') (h' : c'.SameNames c'') :
    c.SameNames c'' := by
  obtain ⟨_, _, rfl⟩ := h
  obtain ⟨r, out, rfl⟩ := h'
  exact ⟨r, out, rfl⟩

/-- An action that emits no more than `n` instructions beside what the tokens pay for that it reads; they
may pay for more than it emits. When that is done, the names change as `R` says. -/
def Costs (R : α → Compilation → Compilation → Prop) (x : Compiling α) (n : Int) : Prop :=
  ∀ c, Yields x c fun a c' =>
    (∃ c₁, c.SameNames c₁ ∧ R a c₁ c') ∧ (c'.budget : Int) ≤ c.budget + 13 * n

/-- The names stay as they are. -/
abbrev Keeps (x : Compiling α) (n : Int) : Prop := Costs (fun _ c c' => c = c') x n

namespace Costs

variable {R : α → Compilation → Compilation → Prop} {S : β → Compilation → Compilation → Prop}
  {x y : Compiling α} {f : α → Compiling β} {m n : Int}

theorem mono (h : Costs R x m) (hle : m ≤ n) : Costs R x n := fun c =>
  (h c).mono fun _ c' ⟨hnames, hc'⟩ => ⟨hnames, by omega⟩

theorem pure {a : α} (h : ∀ c, R a c c) : Costs R (pure a) 0 := fun c =>
  .pure ⟨⟨c, .refl c, h c⟩, by omega⟩

theorem fail {position : Position} {cause : Cause} :
    Costs R (Compiling.fail position cause : Compiling α) n := fun _ => .fail

theorem fail_bind {position : Position} {cause : Cause} :
    Costs S ((Compiling.fail position cause : Compiling α) >>= f) n := fun _ => .bind .fail

/-- Costs add up. -/
theorem bind (hx : Keeps x m) (hf : ∀ a, Costs S (f a) n) : Costs S (x >>= f) (m + n) :=
  fun c => .bind ((hx c).mono fun a c₁ ⟨⟨_, hnames, hsame⟩, hc₁⟩ => by
    subst hsame
    exact (hf a _).mono fun _ c' ⟨⟨c₂, hnames', hS⟩, hc'⟩ =>
      ⟨⟨c₂, hnames.trans hnames', hS⟩, by omega⟩)

/-- What costs nothing may come first. -/
theorem free (hx : Keeps x 0) (hf : ∀ a, Costs S (f a) n) : Costs S (x >>= f) n :=
  (bind hx hf).mono (by omega)

theorem imp {T : α → Compilation → Compilation → Prop} (hx : Costs R x n)
    (h : ∀ a c c', R a c c' → T a c c') : Costs T x n := fun c =>
  (hx c).mono fun a c' ⟨⟨c₁, hnames, hR⟩, hc'⟩ => ⟨⟨c₁, hnames, h a c₁ c' hR⟩, hc'⟩

/-- The result is made from that of another action. -/
theorem map {g : α → β} (hx : Costs R x n) (h : ∀ a c c', R a c c' → S (g a) c c') :
    Costs S (x >>= fun a => Pure.pure (g a)) n := fun c =>
  .bind ((hx c).mono fun a c' ⟨⟨c₁, hnames, hR⟩, hc'⟩ => .pure ⟨⟨c₁, hnames, h a c₁ c' hR⟩, hc'⟩)

theorem ite {p : Prop} [Decidable p] (hx : Costs R x n) (hy : Costs R y n) :
    Costs R (if p then x else y) n := by
  split
  · exact hx
  · exact hy

/-! ### Reading -/

section

variable {k : Nat} {r : Token.Reader} {kind : Token.Kind} {wanted : String}

theorem reader (hr : c.reader.Passes k r) : (∃ c₁, c.SameNames c₁ ∧ c₁ = { c with reader := r }) ∧
    (({ c with reader := r } : Compilation).budget : Int) ≤ c.budget + 13 * (-10 * k) := by
  refine ⟨⟨_, ⟨r, c.out, rfl⟩, rfl⟩, ?_⟩
  unfold Token.Reader.Passes at hr
  simp only [Compilation.budget]
  omega

/-- An action that only reads costs nothing. -/
theorem skimming (h : Skimming x) : Keeps x 0 := fun c =>
  (h c).mono fun _ c' hc' => by
    obtain ⟨r, regexes, rfl, hr, -⟩ := hc'
    exact ⟨⟨_, ⟨r, _, rfl⟩, rfl⟩, (reader hr).2⟩

theorem read : Keeps (Compiling.read wanted) (-10) := fun _ => .read fun _ _ hr => reader hr

theorem readLoose : Keeps (Compiling.readLoose wanted) (-10) := fun _ => .readLoose fun _ _ hr => reader hr

theorem expect : Keeps (Compiling.expect kind wanted) (-10) := fun _ => .expect fun _ _ hr _ => reader hr

theorem expectLoose : Keeps (Compiling.expectLoose kind wanted) (-10) := fun _ =>
  .expectLoose fun _ _ hr => reader hr

theorem peekLoose : Keeps Compiling.peekLoose 0 := fun _ => .peekLoose fun _ _ hr => reader hr

theorem constantUntil {stops : List Token.Kind} : Keeps (Compiling.constantUntil stops) 0 := fun _ =>
  .constantUntil fun _ _ hr => reader hr

theorem get : Keeps (get : Compiling Compilation) 0 := fun c => .get ⟨⟨c, .refl c, rfl⟩, by omega⟩

end

/-! ### Emitting -/

theorem out {e : Emitter} {k : Nat} (h : e.position ≤ c.out.position + 13 * k) :
    (∃ c₁, c.SameNames c₁ ∧ c₁ = { c with out := e }) ∧
    (({ c with out := e } : Compilation).budget : Int) ≤ c.budget + 13 * k := by
  refine ⟨⟨_, ⟨c.reader, e, rfl⟩, rfl⟩, ?_⟩
  simp only [Compilation.budget]
  omega

/-- What emits `k` instructions at most costs no more. -/
theorem emits {place : Position} {V : α → Prop} {k : Nat} (h : Emits place V x k) : Keeps x k := fun c =>
  (h c).yields.mono fun _ _ ⟨_, _, hc', hsize⟩ => by
    subst hc'
    exact out hsize

theorem output {g : Emitter → Emitter} {k : Nat} (h : ∀ e : Emitter, (g e).position ≤ e.position + 13 * k) :
    Keeps (Compiling.output g) k := fun c => .output (out (h c.out))

theorem emit {i : Instr} : Keeps (Compiling.emit i) 1 := output (k := 1) fun e => e.position_emit_le_add i

theorem emitAt {i : Instr} : Keeps (Compiling.emitAt i) 1 := fun c =>
  .emitAt (out (k := 1) (c.out.position_emit_le_add i))

theorem emitString {use : StringUse} {s : String} : Keeps (Compiling.emitString use s) 1 :=
  output (k := 1) fun e => e.position_emitString_le_add use s

theorem offset : Keeps Compiling.offset 0 := fun c => .offset ⟨⟨c, .refl c, rfl⟩, by omega⟩

end Costs

/-! ## Steps -/

/-- The head of a definition has been read, and the frame of its body has been opened. -/
def Compilation.Enters (c c' : Compilation) : Prop :=
  ∃ name params,
    ((c.withSubroutine name params.length).openFrame.addArguments 0 params).SameNames c'

/-- What a step does to the names, at its end. -/
inductive Compilation.Moves (ctx : Context) (c c' : Compilation) : Prop where
  | keep (h : c = c')
  | perform (t : OpenTag) (h : t.perform ctx c = .ok () c')
  | enter (h : c.Enters c')

/-! ## Tags -/

namespace OpenTag

variable (t : OpenTag)

/-- To begin an argument takes three instructions at most. -/
theorem costs_beginArgument : Keeps t.beginArgument 3 := by
  unfold beginArgument
  refine .ite .fail_bind ?_
  dsimp only
  split
  · refine .free (.skimming .position) fun _ => .free .constantUntil fun text => ?_
    split
    · exact (Costs.pure fun _ => rfl).mono (by decide)
    · exact .free .peekLoose fun _ => .fail
  · refine .free .constantUntil fun text => ?_
    split
    · exact (Costs.emitString.bind fun _ => .pure fun _ => rfl).mono (by decide)
    · exact (Costs.emit.bind fun _ => .pure fun _ => rfl).mono (by decide)
  · refine .free .constantUntil fun text => ?_
    split
    · exact (Costs.emits (t.emits_constantNumber _)).bind fun _ => .pure fun _ => rfl
    · refine .mono (.bind (.emits t.emits_pushDeferred) fun _ => ?_) (m := 1 + (1 + 0)) (by decide)
      exact .bind .emit fun _ => .pure fun _ => rfl
  · exact (Costs.pure fun _ => rfl).mono (by decide)
  · exact (Costs.emitAt.bind fun _ => .free .offset fun _ => .pure fun _ => rfl).mono (by decide)

/-- A tag ends with what it performs. -/
theorem costs_finish (ctx : Context) :
    Costs (fun _ c c' => ∃ t : OpenTag, t.perform ctx c = .ok () c') (t.finish ctx) 2 := by
  refine .ite .fail_bind fun c _ c' hperform => ⟨⟨c, .refl c, t, hperform⟩, ?_⟩
  obtain ⟨_, _, hturns, rfl, hsize⟩ := (t.perform_turns ctx c).yields _ _ hperform
  simp only [Compilation.budget, hturns.reader]
  omega

/-- The token that ends an argument pays for all that is emitted behind it. -/
theorem costs_endArgument (ctx : Context) :
    Costs (fun next c c' => if next.isSome then c = c' else ∃ t : OpenTag, t.perform ctx c = .ok () c')
      (t.endArgument ctx) (-4) := by
  refine .mono (.bind .read fun _ => .bind (.emits (t.emits_betweenArguments _)) fun t => ?_)
    (m := -10 + (4 + 2)) (by decide)
  exact .ite ((Costs.pure fun _ => rfl).mono (by decide)) ((costs_finish _ ctx).map fun _ _ _ h => h)

/-- Constant arguments pay for themselves, up to one that is not constant. -/
theorem costs_arguments (ctx : Context) (tokens : List Token) :
    Costs (fun _ => Compilation.Moves ctx) (t.arguments ctx tokens) 3 := by
  induction tokens generalizing t with
  | nil => exact .free (.skimming .position) fun _ => .fail
  | cons _ tokens ih =>
    refine .mono (.bind t.costs_beginArgument fun (t, after) => ?_) (m := 3 + 0) (by decide)
    cases after with
    | some after => exact .pure fun _ => .keep rfl
    | none =>
      refine fun c => .bind ((t.costs_endArgument ctx c).mono fun next c₁ ⟨⟨c₂, hnames, hends⟩, hc₁⟩ => ?_)
      cases next with
      | some t =>
        cases hends
        exact (ih t c₁).mono fun _ c' ⟨⟨c₃, hnames', hmoves⟩, hc'⟩ =>
          ⟨⟨c₃, hnames.trans hnames', hmoves⟩, by omega⟩
      | none => exact .pure ⟨⟨c₂, hnames, .perform _ hends.choose_spec⟩, by omega⟩

theorem costs_resume (ctx : Context) (after : After) :
    Costs (fun _ => Compilation.Moves ctx) (t.resume ctx after) 1 := by
  refine .mono (.bind (.emits (emits_afterArgument t.start after)) fun _ c => .bind (.tokens (.bind ?_)))
    (m := 2 + -1) (by decide)
  refine (t.costs_endArgument ctx c).mono fun next c₁ ⟨⟨c₂, hnames, hends⟩, hc₁⟩ => ?_
  cases next with
  | some t =>
    cases hends
    exact (t.costs_arguments ctx _ c₁).mono fun _ c' ⟨⟨c₃, hnames', hmoves⟩, hc'⟩ =>
      ⟨⟨c₃, hnames.trans hnames', hmoves⟩, by omega⟩
  | none => exact .pure ⟨⟨c₂, hnames, .perform _ hends.choose_spec⟩, by omega⟩

/-- The body of a definition is an argument that is still to be compiled. -/
theorem keeps_body (ctx : Context) (name : String) (skip : Nat) (place : Position) (tokens : List Token) :
    Keeps (arguments ctx { tag := ⟨name, .define skip, 1, 1⟩, start := place } tokens) 3 := by
  cases tokens with
  | nil => exact .free (.skimming .position) fun _ => .fail
  | cons => exact Costs.mono (Costs.pure fun _ => rfl) (by decide)

end OpenTag

namespace Tag

/-- The tags that define subroutines. -/
def Defines (tag : Tag) : Prop := ∃ name skip, tag = ⟨name, .define skip, 1, 1⟩

/-- A definition is paid for by the tokens of its head. -/
theorem costs_define : Costs (fun tag c c' => tag.Defines ∧ c.Enters c') define (-10) := by
  unfold define
  refine .mono (.bind .expectLoose fun name => .free (.skimming .takeLoose) fun colon => ?_)
    (m := -10 + 0) (by decide)
  have hend (params : List String) :
      Costs (fun tag c c' => tag.Defines ∧ c.Enters c') (beginBody name params) 0 := by
    unfold beginBody
    refine .mono (.bind .expectLoose fun _ => .ite .fail_bind (.bind .emitAt fun skip => ?_))
      (m := -10 + (1 + 0)) (by decide)
    refine fun c => .bind (.get (.bind (.set (.pure ⟨⟨c, .refl c, ⟨_, skip, rfl⟩, _, params, .refl _⟩, ?_⟩))))
    obtain ⟨inner, hopened, -⟩ :=
      frame_addArguments (c.withSubroutine name.text params.length).openFrame 0 params
    have hsame : ((c.withSubroutine name.text params.length).openFrame.addArguments 0 params).budget =
        c.budget := by
      rw [hopened]
      rfl
    exact Int.le_of_eq (congrArg _ hsame)
  refine .ite ?_ (.free (.pure fun _ => rfl) hend)
  exact .free (.skimming .tokensLeft) fun fuel => .free (.skimming (skimming_parameters _)) hend

/-- The name of a tag pays for what is looked up or defined. -/
theorem costs_resolve (ctx : Context) (place : Position) :
    Costs (fun tag c c' => c = c' ∨ tag.Defines ∧ c.Enters c') (resolve ctx place) (-10) := by
  refine .mono (.bind .readLoose fun first => ?_) (m := -10 + 0) (by decide)
  split
  · refine .free (.skimming .take) fun bracket => .ite ?_ ?_
    · exact (costs_define.imp fun _ _ _ h => .inr h).mono (by decide)
    refine .mono (.bind .expect fun name => .free .get fun c => ?_) (m := -10 + 0) (by decide)
    split
    · exact .pure fun _ => .inl rfl
    · exact .fail
  · split
    · exact .pure fun _ => .inl rfl
    · exact .pure fun _ => .inl rfl
    · exact .fail
  · exact .fail

theorem costs_start (ctx : Context) (place : Position) :
    Costs (fun _ => Compilation.Moves ctx) (start ctx place) 0 := by
  have hrest {R : Compilation → Compilation → Prop} (t : OpenTag)
      (harguments : ∀ tokens, Costs (fun _ => R) (t.arguments ctx tokens) 3)
      (hfinish : Costs (fun _ => R) (t.finish ctx) 2) : Costs (fun _ => R) (do
        let tokens ← Compiling.tokens
        if ← Compiling.takeLoose .colon then t.arguments ctx tokens
        else
          let _ ← Compiling.expectLoose .rightSquare "':' or ']'"
          t.finish ctx
          return Step.done) 3 :=
    .free (.skimming .tokens) fun _ => .free (.skimming .takeLoose) fun _ => .ite (harguments _)
      (.mono (.bind .expectLoose fun _ => hfinish.map fun _ _ _ h => h) (by decide))
  refine fun c => .bind ((costs_resolve ctx place c).mono fun tag c₁ ⟨⟨c₂, hnames, hresolve⟩, hc₁⟩ => ?_)
  obtain rfl | ⟨⟨name, skip, rfl⟩, name', params, henters⟩ := hresolve
  · refine (hrest _ (OpenTag.costs_arguments _ ctx)
      ((OpenTag.costs_finish _ ctx).imp fun _ _ _ h => .perform _ h.choose_spec) c₂).mono ?_
    exact fun _ _ ⟨⟨c₃, hnames', hmoves⟩, hc'⟩ => ⟨⟨c₃, hnames.trans hnames', hmoves⟩, by omega⟩
  · -- without a body, there is an argument too few
    refine (hrest _ (OpenTag.keeps_body ctx name skip place) .fail_bind c₁).mono ?_
    rintro _ _ ⟨⟨_, hnames', rfl⟩, hc'⟩
    exact ⟨⟨c₂, hnames, .enter ⟨name', params, henters.trans hnames'⟩⟩, by omega⟩

end Tag

/-! ## Blocks -/

namespace Block

theorem costs_beginItem (b : OpenBlock) (weight : Weight) : Keeps (beginItem b weight) 0 :=
  .free .offset fun _ => .pure fun _ => rfl

theorem costs_readWeight (b : OpenBlock) : Keeps (readWeight b) 1 := by
  refine .free (.skimming .take) fun taken => .ite ?_ ((costs_beginItem b _).mono (by decide))
  refine .free (.skimming .position) fun place => .free .constantUntil fun text => ?_
  split
  · split
    · exact .fail
    · exact (Costs.read.bind fun _ => costs_beginItem b _).mono (by decide)
  · exact .bind .emitAt fun _ => .pure fun _ => rfl

theorem costs_start : Keeps start 2 := by
  refine fun c => .bind (.get (.bind (.set ?_)))
  have hemit := Costs.out (c := c) (k := 1)
    (c.out.reserveBlock.2.position_emit_le_add (.block (Int32.ofNat c.out.reserveBlock.1)))
  exact (costs_readWeight _ _).mono fun _ _ ⟨⟨c₁, hnames, hsame⟩, hc'⟩ =>
    ⟨⟨c₁, .trans ⟨_, _, rfl⟩ hnames, hsame⟩,
      Int.le_trans hc' (Int.le_trans (Int.add_le_add_right hemit.2 _) (by omega))⟩

theorem costs_afterWeight (b : OpenBlock) (offset : Nat) : Keeps (afterWeight b offset) 0 :=
  .mono (.bind .read fun _ => .bind .emit fun _ => .bind .emit fun _ => costs_beginItem b _)
    (by decide)

theorem costs_afterItem (b : OpenBlock) : Keeps (afterItem b) 0 := by
  refine .mono (.bind .emit fun _ => .bind .read fun _ => ?_) (m := 1 + (-10 + 1)) (by decide)
  refine .ite (.free .offset fun finish => ?_) (costs_readWeight b)
  refine .free (.output (k := 0) fun _ => Nat.le_refl _) fun _ => (Costs.pure fun _ => rfl).mono (by decide)

end Block

/-! ## Constructs -/

theorem costs_query (start : Position) : Keeps (query start) 1 := by
  have hparse : Skimming (Query.parse start) := fun c => (Query.parse_yields start c).mono fun _ _ h => h.1
  exact .free (.skimming hparse) fun q c => .bind (.get (.set
    (Costs.out (k := 1) ((c.out.addQuery q).2.position_emit_le_add _))))

/-- A construct is entered, with a mark of its place at most. -/
theorem costs_enter (stop : Terminator) (token : Token) (child : Construct) :
    Keeps (enter stop token child) 1 :=
  .bind (.output (k := 1) fun e => e.position_mark_le _) fun _ => .pure fun _ => rfl

theorem costs_pattern (stop : Terminator) (tokens : List Token) : Keeps (pattern stop tokens) 0 := by
  induction tokens with
  | nil => exact .ite (.pure fun _ => rfl) (.free (.skimming .position) fun _ => .fail)
  | cons token tokens ih =>
    unfold pattern
    refine .ite (.pure fun _ => rfl) (.mono (.bind .read fun _ => ?_) (m := -10 + 1) (by decide))
    split
    · exact .fail
    · exact .fail
    · exact .fail
    · exact costs_enter _ _ _
    · exact costs_enter _ _ _
    · exact costs_enter _ _ _
    · exact costs_enter _ _ _
    · exact .fail
    · exact .bind .emitString fun _ => ih

/-- A construct emits at most two instructions each time it is gone on with, beside what is paid for. -/
theorem Construct.costs_resume (ctx : Context) (k : Construct) :
    Costs (fun _ => Compilation.Moves ctx) (k.resume ctx) 2 := by
  have hkeeps {x : Compiling Step} {n : Int} (h : Keeps x n) (hn : n ≤ 2) :
      Costs (fun _ => Compilation.Moves ctx) x 2 := (h.imp fun _ _ _ => .keep).mono hn
  cases k with
  | pattern stop => exact hkeeps (.free .get fun c => costs_pattern stop _) (by decide)
  | escape token => exact hkeeps (.bind (.emits (emits_escape token)) fun _ => .pure fun _ => rfl) (by decide)
  | query start => exact hkeeps ((costs_query start).bind fun _ => .pure fun _ => rfl) (by decide)
  | tag start => exact (Tag.costs_start ctx start).mono (by decide)
  | argument t after => exact (t.costs_resume ctx after).mono (by decide)
  | block => exact hkeeps Block.costs_start (by decide)
  | weight b offset => exact hkeeps (Block.costs_afterWeight b offset) (by decide)
  | item b => exact hkeeps (Block.costs_afterItem b) (by decide)

/-- So the code of a construct is no longer than the tokens that were read and the number of steps that
were taken allow. -/
theorem Finishes.budget_le {n : Nat} {r : EStateM.Result Error Compilation Step}
    (h : Finishes ctx n r c') {k : Construct} (hk : k.resume ctx c = r) :
    c'.budget ≤ c.budget + 26 * (n + 1) := by
  induction h generalizing k c with
  | done =>
    have hcosts := (k.costs_resume ctx c _ _ hk).2
    omega
  | push _ _ ihchild ihself =>
    have hcosts := (k.costs_resume ctx c _ _ hk).2
    have hchild := ihchild rfl
    have hself := ihself rfl
    omega

end Compile

end Wordloom
