import Wordloom.Compile.Query
import Wordloom.Proofs.Scanning

/-!
# Wordloom.Proofs.RegexTokens

How a regular expression is written in a source: between double slashes, with a backslash before
each slash of its own, and with its flags behind it. What is written so is a single token, and the
token gives the expression back.
-/

namespace Wordloom

namespace Token

/-- A pattern with a backslash before each slash. -/
def escapeSlashes : List Char → List Char
  | [] => []
  | c :: cs => if c = '/' then '\\' :: '/' :: escapeSlashes cs else c :: escapeSlashes cs

theorem head?_escapeSlashes (cs : List Char) : (escapeSlashes cs).head? ≠ some '/' := by
  cases cs with
  | nil => simp [escapeSlashes]
  | cons c cs =>
    rw [escapeSlashes]
    split
    · simp
    · simpa using ‹c ≠ '/'›

variable {pattern flags rest : List Char}

/-- A pattern ends at the first slashes that are not its own, unless its last character is a
backslash. -/
theorem splitRegex_escapeSlashes (hpattern : pattern.getLast? ≠ some '\\')
    (hflags : flags.all Char.isAlpha = true) (hrest : (rest.head?.all fun c => !c.isAlpha) = true) :
    splitRegex (escapeSlashes pattern ++ '/' :: '/' :: (flags ++ rest)) =
      ⟨.regex, escapeSlashes pattern ++ '/' :: '/' :: flags, rest⟩ := by
  induction pattern with
  | nil =>
    obtain ⟨htake, hdrop⟩ := takeWhile_append_of_head hflags hrest
    rw [escapeSlashes, List.nil_append, splitRegex, htake, hdrop, List.nil_append]
  | cons c cs ih =>
    have hcs : cs.getLast? ≠ some '\\' := by
      intro hlast
      rw [List.getLast?_cons, hlast] at hpattern
      exact hpattern rfl
    rw [escapeSlashes]
    split
    · rw [List.cons_append, List.cons_append, splitRegex, ih hcs]
      rfl
    · rename_i hc
      rw [List.cons_append, splitRegex, ih hcs]
      · rfl
      · exact fun _ hslash => absurd hslash hc
      · -- a backslash is not the last character, and no slash follows it
        rintro ds rfl hds
        cases cs with
        | nil => exact hpattern rfl
        | cons d cs =>
          have hhead := head?_escapeSlashes (d :: cs)
          have hne : escapeSlashes (d :: cs) ≠ [] := by
            rw [escapeSlashes]
            split <;> simp
          obtain ⟨e, es, hes⟩ := List.exists_cons_of_ne_nil hne
          rw [hes] at hds hhead
          exact hhead (congrArg some (List.cons.inj hds).1)

/-- A regular expression as it is written, with its flags. -/
def regexChars (pattern flags : List Char) : List Char :=
  '/' :: '/' :: (escapeSlashes pattern ++ '/' :: '/' :: flags)

/-- What is written as a regular expression is cut off what follows, which must not be a letter. -/
theorem cut_regexChars (hpattern : pattern.getLast? ≠ some '\\')
    (hflags : flags.all Char.isAlpha = true) (hrest : (rest.head?.all fun c => !c.isAlpha) = true) :
    cut '/' ((regexChars pattern flags).tail ++ rest) =
      ⟨.regex, (regexChars pattern flags).tail, rest⟩ := by
  have hsplit := splitRegex_escapeSlashes hpattern hflags hrest
  simp only [regexChars, List.tail_cons, List.cons_append, List.append_assoc]
  show (splitRegex _).extend ['/'] = _
  rw [hsplit]
  rfl

end Token

namespace Compile.Query

open Token

theorem unescapeSlashes_escapeSlashes (cs : List Char) : unescapeSlashes (escapeSlashes cs) = cs := by
  induction cs with
  | nil => rfl
  | cons c cs ih =>
    rw [escapeSlashes]
    split
    · rename_i hc
      rw [unescapeSlashes, ih, hc]
    · rw [unescapeSlashes, ih]
      rintro ds - hds
      exact head?_escapeSlashes cs (by rw [hds]; rfl)

/-- The last double slash is found behind whatever has no slash. -/
theorem splitSlashes?_append {cs : List Char} (h : ∀ c ∈ cs, c ≠ '/') (behind rest : List Char) :
    splitSlashes? behind (cs ++ '/' :: '/' :: rest) = some (rest.reverse, cs.reverse ++ behind) := by
  induction cs generalizing behind with
  | nil => rfl
  | cons c cs ih =>
    rw [List.forall_mem_cons] at h
    rw [List.cons_append, splitSlashes?, ih h.2, List.reverse_cons, List.append_assoc]
    · rfl
    · exact fun _ hc => absurd hc h.1

/-- The token of a regular expression gives it back. -/
theorem regexSource?_regexChars (pattern : List Char) {flags : List Char}
    (hflags : flags.all Char.isAlpha = true) :
    regexSource? (String.ofList (regexChars pattern flags)) =
      some (String.ofList (withFlags flags pattern)) := by
  have hletters : ∀ c ∈ flags.reverse, c ≠ '/' := by
    rintro c hc rfl
    cases List.all_eq_true.1 hflags _ (List.mem_reverse.1 hc)
  have hreverse : (escapeSlashes pattern ++ '/' :: '/' :: flags).reverse =
      flags.reverse ++ '/' :: '/' :: (escapeSlashes pattern).reverse := by simp
  unfold regexSource?
  rw [String.toList_ofList, regexChars]
  simp only [hreverse, splitSlashes?_append hletters, Option.map_some, List.reverse_reverse,
    List.append_nil, unescapeSlashes_escapeSlashes]

/-- **Regular expressions survive being written.** Wherever a token can begin, what is written for a
pattern and its flags is a single token, unless a letter follows, and the token gives the pattern back,
with the flags in front of it. -/
theorem scan_regexChars {pattern flags rest : List Char} (hpattern : pattern.getLast? ≠ some '\\')
    (hflags : flags.all Char.isAlpha = true) (hrest : (rest.head?.all fun c => !c.isAlpha) = true)
    (place : Position) :
    scanFrom place (regexChars pattern flags ++ rest) =
      ⟨.regex, String.ofList (regexChars pattern flags), place⟩ ::
        scanFrom (place.after (regexChars pattern flags)) rest ∧
    regexSource? (String.ofList (regexChars pattern flags)) =
      some (String.ofList (if flags = [] then pattern else '(' :: '?' :: flags ++ ')' :: pattern)) := by
  constructor
  · have hcut := cut_regexChars hpattern hflags hrest
    change scanFrom place ('/' :: ((regexChars pattern flags).tail ++ rest)) = _
    rw [scanFrom, hcut]
    rfl
  · rw [regexSource?_regexChars pattern hflags]
    cases flags <;> rfl

/-- Slashes behind a backslash, next to one another and at the end. -/
theorem scan_regexChars_slashes :
    scan "//\\\\/a\\/\\///im b" = ⟨.regex, "//\\\\/a\\/\\///im", .start⟩ ::
      scanFrom ⟨1, 15, 14⟩ " b".toList ∧
    regexSource? "//\\\\/a\\/\\///im" = some "(?im)\\/a//" := by
  have hpattern : ['\\', '/', 'a', '/', '/'].getLast? ≠ some '\\' := by decide
  have hflags : ['i', 'm'].all Char.isAlpha = true := by decide
  have hrest : ([' ', 'b'].head?.all fun c => !c.isAlpha) = true := by decide
  exact scan_regexChars hpattern hflags hrest .start

end Compile.Query

end Wordloom
