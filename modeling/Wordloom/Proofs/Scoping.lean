import Wordloom.Proofs.Denotation

/-!
# Wordloom.Proofs.Scoping

What is known behind a pattern: variables are only added, at the end; parameters stay; and the
subroutines are those that evaluation has there. A pattern without anything to be run adds nothing,
and its text is what capturing it comes to.
-/

namespace Wordloom

/-! ## Names -/

/-- More variables are known, and the parameters are the same. -/
structure Scoping.Extends (s s' : Scoping) : Prop where
  params : s'.params = s.params
  locals : s.locals <+: s'.locals

namespace Scoping

theorem Extends.refl (s : Scoping) : s.Extends s := ⟨rfl, List.prefix_refl _⟩

theorem Extends.trans {s s' s'' : Scoping} (h : s.Extends s') (h' : s'.Extends s'') :
    s.Extends s'' := ⟨h'.params.trans h.params, h.locals.trans h'.locals⟩

/-- A declared variable is in scope; nothing else changes. -/
theorem declare_eq {s s' : Scoping} {name : String} (h : s.declare name = some s') :
    name ∈ s'.locals ∧ s.Extends s' ∧ s'.procedures = s.procedures := by
  unfold declare at h
  split at h
  · rename_i hmem
    cases h
    exact ⟨hmem, .refl s, rfl⟩
  · split at h
    · cases h
      exact ⟨List.mem_append_right _ (List.mem_singleton_self name),
        ⟨rfl, List.prefix_append _ _⟩, rfl⟩
    · cases h

end Scoping

/-- A tag only adds variables to those that its arguments leave. -/
theorem TagHead.check_extends {head : TagHead} {before s s' : Scoping} {args : Arguments}
    (h : head.check before s args = some s') : s.Extends s' ∧ s'.procedures = s.procedures := by
  have hsame : ∀ {P : Prop} [Decidable P], (if P then some s else none) = some s' →
      s.Extends s' ∧ s'.procedures = s.procedures := by
    intro P _ hif
    split at hif
    · cases hif
      exact ⟨.refl s, rfl⟩
    · cases hif
  cases head with
  | set =>
    simp only [TagHead.check] at h
    split at h
    · exact (Scoping.declare_eq h).2
    · cases h
  | get | swap | argument | call _ =>
    simp only [TagHead.check] at h
    split at h
    · exact hsame h
    · cases h
  | arithmetic _ | concat | compare _ => exact hsame h

theorem Pattern.check_block {items : Items} {next : Pattern} {stop : Compile.Terminator}
    {s s' : Scoping} (h : (Pattern.block items next).check stop s = some s') :
    items ≠ .nil ∧ ∃ s₁, items.check s = some s₁ ∧ next.check stop s₁ = some s' := by
  cases items with
  | nil => cases h
  | plain body rest | weighted weight body rest =>
    exact ⟨nofun, Option.bind_eq_some_iff.1 h⟩

mutual

/-- A pattern that is checked only adds names. -/
theorem Pattern.check_extends : ∀ {p : Pattern} {stop : Compile.Terminator} {s s' : Scoping},
    p.check stop s = some s' → s.Extends s' ∧ s'.procedures = p.known s.procedures
  | .nil, _, s, _, h => by
    cases h
    exact ⟨.refl s, rfl⟩
  | .leaf _ next, _, _, _, h => by
    rw [Pattern.check] at h
    split at h
    · exact next.check_extends h
    · cases h
  | .block items next, _, s, _, h => by
    obtain ⟨-, s₁, hitems, hnext⟩ := Pattern.check_block h
    obtain ⟨hextends, hknown⟩ := items.check_extends hitems
    obtain ⟨hextends', hknown'⟩ := next.check_extends hnext
    exact ⟨hextends.trans hextends', by rw [hknown', hknown, Pattern.known]⟩
  | .define name params body next, _, s, _, h => by
    rw [Pattern.check] at h
    split at h
    · obtain ⟨_, -, hnext⟩ := Option.bind_eq_some_iff.1 h
      obtain ⟨hextends, hknown⟩ := next.check_extends hnext
      exact ⟨⟨hextends.params, hextends.locals⟩, by rw [hknown, Pattern.known]⟩
    · cases h
  | .tag head args next, _, s, _, h => by
    rw [Pattern.check] at h
    obtain ⟨s₁, hargs, h⟩ := Option.bind_eq_some_iff.1 h
    obtain ⟨s₂, hhead, hnext⟩ := Option.bind_eq_some_iff.1 h
    obtain ⟨hextends, hknown⟩ := args.check_extends hargs
    obtain ⟨hextends', hkept⟩ := TagHead.check_extends hhead
    obtain ⟨hextends'', hknown'⟩ := next.check_extends hnext
    exact ⟨(hextends.trans hextends').trans hextends'', by
      rw [hknown', hkept, hknown, Pattern.known]⟩

theorem Arguments.check_extends : ∀ {args : Arguments} {s s' : Scoping},
    args.check s = some s' → s.Extends s' ∧ s'.procedures = args.known s.procedures
  | .nil, s, _, h => by
    cases h
    exact ⟨.refl s, rfl⟩
  | .cons first rest, s, _, h => by
    rw [Arguments.check] at h
    obtain ⟨s₁, hfirst, hrest⟩ := Option.bind_eq_some_iff.1 h
    obtain ⟨hextends, hknown⟩ := first.check_extends hfirst
    obtain ⟨hextends', hknown'⟩ := rest.check_extends hrest
    exact ⟨hextends.trans hextends', by rw [hknown', hknown, Arguments.known]⟩

theorem Items.check_extends : ∀ {items : Items} {s s' : Scoping},
    items.check s = some s' → s.Extends s' ∧ s'.procedures = items.known s.procedures
  | .nil, s, _, h => by
    cases h
    exact ⟨.refl s, rfl⟩
  | .plain body rest, s, _, h => by
    rw [Items.check] at h
    split at h
    · cases h
    · obtain ⟨s₁, hbody, hrest⟩ := Option.bind_eq_some_iff.1 h
      obtain ⟨hextends, hknown⟩ := body.check_extends hbody
      obtain ⟨hextends', hknown'⟩ := rest.check_extends hrest
      exact ⟨hextends.trans hextends', by rw [hknown', hknown, Items.known]⟩
  | .weighted weight body rest, s, _, h => by
    rw [Items.check] at h
    split at h
    · obtain ⟨s₁, hweight, h⟩ := Option.bind_eq_some_iff.1 h
      obtain ⟨s₂, hbody, hrest⟩ := Option.bind_eq_some_iff.1 h
      obtain ⟨hextends, hknown⟩ := weight.check_extends hweight
      obtain ⟨hextends', hknown'⟩ := body.check_extends hbody
      obtain ⟨hextends'', hknown''⟩ := rest.check_extends hrest
      exact ⟨(hextends.trans hextends').trans hextends'', by
        rw [hknown'', hknown', hknown, Items.known]⟩
    · cases h

end

/-! ### Code where more is known -/

section

variable {env : Environment} {before after : List Link} {locals more : List String} {base : Nat}

theorem Code.Means.extend {code : Code} {y : Sense Unit}
    (h : code.Means env before after locals base y) (hlocals : locals <+: more) :
    code.Means env before after more base y := by
  obtain ⟨_, rfl⟩ := hlocals
  exact h.mono

theorem Operands.Means.extend {os : Operands} {y : Sense (List Value)}
    (h : os.Means env before after locals base y) (hlocals : locals <+: more) :
    os.Means env before after more base y := by
  obtain ⟨_, rfl⟩ := hlocals
  exact h.mono

end

/-! ## Constants -/

namespace Direct

theorem print_empty : print "" = pure () := by
  funext s
  change Except.ok ((), { s with text := s.text ++ "" }) = .ok ((), s)
  rw [String.append_empty]

theorem print_print (a b : String) : (do print a; print b) = print (a ++ b) := by
  funext s
  change Except.ok ((), { s with text := s.text ++ a ++ b }) =
    .ok ((), { s with text := s.text ++ (a ++ b) })
  rw [String.append_assoc]

theorem capture_print (text : String) : capture (print text) = pure text := by
  funext s
  change Except.ok ("" ++ text, s) = .ok (text, s)
  rw [String.empty_append]

end Direct

namespace Pattern

variable {lower : Option Interpreter} {params : Parameters} {known : List Procedure}

theorem constant?_leaf {l : Lexeme} {next : Pattern} {text : String}
    (h : (Pattern.leaf l next).constant? = some text) :
    l.isConstant = true ∧ ∃ more, next.constant? = some more ∧ text = l.prints ++ more := by
  rw [constant?] at h
  split at h
  · rename_i hl
    obtain ⟨more, hmore, rfl⟩ := Option.map_eq_some_iff.1 h
    exact ⟨hl, more, hmore, rfl⟩
  · cases h

/-- A constant pattern prints its text and does nothing else. -/
theorem eval_of_constant : ∀ {p : Pattern} {text : String}, p.constant? = some text →
    p.eval lower params known = Direct.print text
  | .nil, _, h => by
    cases h
    rw [eval, Direct.print_empty]
  | .leaf l next, _, h => by
    obtain ⟨-, more, hmore, rfl⟩ := constant?_leaf h
    rw [eval, eval_of_constant hmore, Direct.print_print]

theorem known_of_constant : ∀ {p : Pattern} {text : String}, p.constant? = some text →
    p.known known = known
  | .nil, _, _ => rfl
  | .leaf _ next, _, h => by
    obtain ⟨-, more, hmore, -⟩ := constant?_leaf h
    rw [Pattern.known, known_of_constant hmore]

/-- A constant pattern declares nothing. -/
theorem check_of_constant {stop : Compile.Terminator} {s s' : Scoping} : ∀ {p : Pattern}
    {text : String}, p.constant? = some text → p.check stop s = some s' → s' = s
  | .nil, _, _, hcheck => by
    cases hcheck
    rfl
  | .leaf _ next, _, h, hcheck => by
    obtain ⟨-, more, hmore, -⟩ := constant?_leaf h
    rw [Pattern.check] at hcheck
    split at hcheck
    · exact check_of_constant hmore hcheck
    · cases hcheck

/-- What a constant prints is known. -/
theorem capture_denote {s : Scoping} {p : Pattern} {text : String}
    (h : p.constant? = some text) : (s.denote p).capture = pure text := by
  funext call
  rw [Sense.capture, Scoping.denote, eval_of_constant h, Direct.capture_print]
  rfl

end Pattern

/-! ### Numbers -/

theorem capturedValue_of_bits {text : String} {bits : UInt64}
    (h : Decimal.bits? (Text.trim text) = some bits) :
    capturedValue true text = .number (.ofBits bits) := by
  rw [capturedValue, if_pos rfl, Value.toNumber, Decimal.float?, h]
  rfl

theorem spelledWeight_of_bits {text : String} {bits : UInt64}
    (h : Decimal.bits? (Text.trim text) = some bits) :
    spelledWeight text = constantWeight (some bits) := by
  rw [spelledWeight, Value.toNumber, Decimal.float?, h]
  rfl

end Wordloom
