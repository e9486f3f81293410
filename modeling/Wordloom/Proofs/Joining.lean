import Wordloom.Token.Scan

/-!
# Wordloom.Proofs.Joining

Sources that are put together with a semicolon or a bracket between them. Neither belongs to a longer
token, so each part is cut into the tokens that it has by itself, unless it ends in the middle of one.
-/

namespace Wordloom

theorem Position.after_append (p : Position) (cs ds : List Char) :
    p.after (cs ++ ds) = (p.after cs).after ds := List.foldl_append

namespace Token

/-- Characters that end any token before them. -/
def isStop (c : Char) : Bool := c == ';' || c == ']'

variable {stop : Char} {cs more : List Char}

/-! ## Single tokens -/

theorem isStop_cases (h : isStop stop = true) : stop = ';' ∨ stop = ']' := by
  simpa [isStop] using h

theorem takeWhile_stop {p : Char → Bool} (hp : p stop = false) (cs more : List Char) :
    (cs ++ stop :: more).takeWhile p = cs.takeWhile p := by
  induction cs with
  | nil => simp [hp]
  | cons c cs ih => simp [List.takeWhile_cons, ih]

theorem dropWhile_stop {p : Char → Bool} (hp : p stop = false) (cs more : List Char) :
    (cs ++ stop :: more).dropWhile p = cs.dropWhile p ++ stop :: more := by
  induction cs with
  | nil => simp [hp]
  | cons c cs ih => by_cases hc : p c <;> simp [ih, hc]

/-- What does not begin with a character does not do so with a stop behind it either. -/
theorem head_ne_stop {c : Char} (hc : stop ≠ c) (h : ∀ ds, cs ≠ c :: ds) (ds : List Char) :
    cs ++ stop :: more ≠ c :: ds := by
  cases cs with
  | nil => exact fun heq => hc (List.cons.inj heq).1
  | cons d cs => exact fun heq => h cs (by rw [(List.cons.inj heq).1])

/-- The same cut with more characters behind it. -/
def Cut.followed (cut : Cut) (more : List Char) : Cut := { cut with rest := cut.rest ++ more }

theorem splitText_stop (hstop : isStop stop = true) (cs : List Char) :
    splitText (cs ++ stop :: more) = ((splitText cs).1, (splitText cs).2 ++ stop :: more) := by
  induction cs with
  | nil => obtain rfl | rfl := isStop_cases hstop <;> rfl
  | cons c cs ih =>
    have hhead : ((cs ++ stop :: more).head? == some '/') = (cs.head? == some '/') := by
      cases cs with
      | nil => obtain rfl | rfl := isStop_cases hstop <;> rfl
      | cons => rfl
    rw [List.cons_append, splitText, splitText, hhead]
    split
    · rfl
    · rw [ih]

theorem splitLiteral_stop (hstop : isStop stop = true) (h : (splitLiteral cs).kind ≠ .broken) :
    splitLiteral (cs ++ stop :: more) = (splitLiteral cs).followed (stop :: more) := by
  have hquote : stop ≠ '"' := by rintro rfl; cases hstop
  fun_induction splitLiteral cs with
  | case1 => exact absurd rfl h
  | case2 cs ih =>
    rw [List.cons_append, List.cons_append, splitLiteral, ih h]
    rfl
  | case3 cs hcs =>
    rw [List.cons_append, splitLiteral]
    · rfl
    · exact head_ne_stop hquote fun ds hds => hcs ds hds
  | case4 c cs _ hc ih =>
    rw [List.cons_append, splitLiteral, ih h]
    · rfl
    · exact fun _ heq _ => hc heq
    · exact hc

theorem splitRegex_stop (hstop : isStop stop = true) (h : (splitRegex cs).kind ≠ .broken) :
    splitRegex (cs ++ stop :: more) = (splitRegex cs).followed (stop :: more) := by
  have hslash : stop ≠ '/' := by rintro rfl; cases hstop
  have halpha : stop.isAlpha = false := by obtain rfl | rfl := isStop_cases hstop <;> rfl
  fun_induction splitRegex cs with
  | case1 => exact absurd rfl h
  | case2 cs =>
    rw [List.cons_append, List.cons_append, splitRegex, takeWhile_stop halpha, dropWhile_stop halpha]
    rfl
  | case3 cs ih =>
    rw [List.cons_append, List.cons_append, splitRegex, ih h]
    rfl
  | case4 c cs hclose hescape ih =>
    rw [List.cons_append, splitRegex, ih h]
    · rfl
    · exact fun ds hc => head_ne_stop hslash (fun ds hds => hclose ds hc hds) ds
    · exact fun ds hc => head_ne_stop hslash (fun ds hds => hescape ds hc hds) ds

theorem splitCode_stop (hstop : isStop stop = true) (h : (splitCode cs).kind ≠ .broken) :
    splitCode (cs ++ stop :: more) = (splitCode cs).followed (stop :: more) := by
  have hhex : Text.hexDigit? stop = none := by obtain rfl | rfl := isStop_cases hstop <;> rfl
  fun_cases splitCode cs with
  | case1 => exact absurd rfl h
  | case2 a b c d cs hhex => simp only [List.cons_append, splitCode, hhex, if_true]; rfl
  | case3 a b c d cs hhex => simp only [List.cons_append, splitCode, hhex]; rfl
  | case4 c cs hu =>
    -- four hexadecimal digits would have the stop among them
    have hdigits {a b d e : Char} {ds : List Char} (hc : c = 'u')
        (heq : cs ++ stop :: more = a :: b :: d :: e :: ds) :
        ([a, b, d, e].all fun x => (Text.hexDigit? x).isSome) = false := by
      obtain _ | ⟨x, _ | ⟨y, _ | ⟨z, _ | ⟨w, cs⟩⟩⟩⟩ := cs
      case cons.cons.cons.cons => exact (hu x y z w cs hc rfl).elim
      all_goals
        simp only [List.cons_append, List.nil_append, List.cons.injEq] at heq
        grind
    rw [List.cons_append]
    unfold splitCode
    split
    · rename_i heq
      cases heq
    · rename_i heq
      obtain ⟨hc, heq⟩ := List.cons.inj heq
      rw [hdigits hc heq, if_neg Bool.false_ne_true, ← heq, hc]
      rfl
    · rename_i heq
      obtain ⟨rfl, rfl⟩ := List.cons.inj heq
      rfl

theorem splitEscape_stop (hstop : isStop stop = true) (h : (splitEscape cs).kind ≠ .broken) :
    splitEscape (cs ++ stop :: more) = (splitEscape cs).followed (stop :: more) := by
  have hdigit : stop.isDigit = false := by obtain rfl | rfl := isStop_cases hstop <;> rfl
  have hcomma : stop ≠ ',' := by rintro rfl; cases hstop
  unfold splitEscape at h ⊢
  rw [takeWhile_stop hdigit, dropWhile_stop hdigit]
  split at h
  · rename_i d digits rest htake hdrop
    rw [htake, hdrop, List.cons_append]
    simp only
    rw [splitCode_stop hstop h]
    rfl
  · rename_i hno
    split
    · rename_i d digits rest htake hdrop
      exact absurd hdrop (head_ne_stop hcomma (fun ds hds => hno _ _ _ htake hds) _)
    · rw [splitCode_stop hstop h]

/-- A token that is not broken ends before a stop. -/
theorem cut_stop (hstop : isStop stop = true) (c : Char) (h : (cut c cs).kind ≠ .broken) :
    cut c (cs ++ stop :: more) = (cut c cs).followed (stop :: more) := by
  have hblank : Text.isBlank stop = false := by
    obtain rfl | rfl := isStop_cases hstop <;> decide
  unfold cut at h ⊢
  split at h
  · rename_i hc
    rw [if_pos hc, if_pos hc, takeWhile_stop hblank, dropWhile_stop hblank]
    rfl
  · rename_i hc
    rw [if_neg hc, if_neg hc]
    split at h
    · exact congrArg (Cut.extend ['/']) (splitRegex_stop hstop h)
    · exact splitEscape_stop hstop h
    · exact splitLiteral_stop hstop h
    · rfl
    · rfl
    · rename_i hescape hliteral hregex hdouble hwithout
      split
      · rename_i ds heq
        exact absurd heq (head_ne_stop (by rintro rfl; cases hstop) (fun ds => hregex ds rfl) _)
      · exact absurd rfl hescape
      · exact absurd rfl hliteral
      · rename_i ds heq
        exact absurd heq (head_ne_stop (by rintro rfl; cases hstop) (fun ds => hdouble ds rfl) _)
      · rename_i ds heq
        exact absurd heq (head_ne_stop (by rintro rfl; cases hstop) (fun ds => hwithout ds rfl) _)
      · split
        · rfl
        · rw [splitText_stop hstop]
          rfl

theorem cut_colon {rest : List Char} (h : rest.head? ≠ some ':') :
    cut ':' rest = ⟨.colon, [], rest⟩ := by
  rw [cut]
  · rfl
  · nofun
  · nofun
  · nofun
  · rintro more - rfl
    exact h rfl
  · nofun

theorem cut_question {rest : List Char} (h : rest.head? ≠ some '!') :
    cut '?' rest = ⟨.question, [], rest⟩ := by
  rw [cut]
  · rfl
  · nofun
  · nofun
  · nofun
  · nofun
  · rintro more - rfl
    exact h rfl

/-! ## Whole sources -/

/-- The kinds and texts of tokens do not depend on where they stand. -/
theorem map_scanFrom {α : Type} (f : Kind → String → α) (p q : Position) (cs : List Char) :
    (scanFrom p cs).map (fun t => f t.kind t.text) =
      (scanFrom q cs).map fun t => f t.kind t.text := by
  fun_induction scanFrom p cs generalizing q with
  | case1 => rw [scanFrom]
  | case2 p c cs lexeme ih =>
    rw [scanFrom, List.map_cons, List.map_cons, ih]

/-- The tokens of a source with a stop behind it are those that it has by itself, if it does not end in
the middle of one. -/
theorem scanFrom_stop (hstop : isStop stop = true) (p : Position) (cs more : List Char)
    (h : ∀ t ∈ scanFrom p cs, t.kind ≠ .broken) :
    scanFrom p (cs ++ stop :: more) = scanFrom p cs ++ scanFrom (p.after cs) (stop :: more) := by
  fun_induction scanFrom p cs with
  | case1 => rfl
  | case2 p c cs lexeme ih =>
    have hcut : cut c (cs ++ stop :: more) = (cut c cs).followed (stop :: more) :=
      cut_stop hstop c (h _ List.mem_cons_self)
    have hlexeme : p.after (c :: cs) = (p.after lexeme).after (cut c cs).rest := by
      rw [← Position.after_append, List.cons_append, cut_append]
    have hrest := ih fun t ht => h t (List.mem_cons_of_mem _ ht)
    rw [List.cons_append, scanFrom, hcut, hlexeme]
    exact congrArg (_ :: ·) hrest

end Token

end Wordloom
