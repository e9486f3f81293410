import Std.Data.TreeMap
import Wordloom.Query
import Wordloom.Regex.Parse
import Wordloom.Rng
import Wordloom.Text.CaseMap

/-!
# Wordloom.Dictionary

What answers queries, the carriers that remember words from one query to the next, and a dictionary
of words in tables.
-/

namespace Wordloom

/-! ## Carriers -/

/-- What the carriers of earlier queries remember: a word under a match carrier, all words used
under a unique carrier. -/
structure CarrierState where
  bound : Std.TreeMap String String := {}
  used : Std.TreeMap String (List String) := {}

namespace CarrierState

def matched? (s : CarrierState) (id : String) : Option String := s.bound[id]?

def isUsed (s : CarrierState) (id word : String) : Bool := (s.used.getD id []).contains word

/-- Notes a word under one carrier. -/
def note (word : String) (s : CarrierState) (c : Carrier) : CarrierState :=
  match c.kind with
  | .matchWord => { s with bound := s.bound.insert c.id word }
  | .unique => { s with used := s.used.insert c.id (word :: s.used.getD c.id []) }
  | _ => s

def remember (s : CarrierState) (carriers : List Carrier) (word : String) : CarrierState :=
  carriers.foldl (note word) s

/-- Forgets what one carrier remembers. -/
def erase (s : CarrierState) (c : Carrier) : CarrierState :=
  match c.kind with
  | .matchWord | .matchUnique => { s with bound := s.bound.erase c.id }
  | .unique => { s with used := s.used.erase c.id }
  | _ => s

def delete (s : CarrierState) (carriers : List Carrier) : CarrierState := carriers.foldl erase s

end CarrierState

/-! ## Dictionaries -/

/-- Whatever answers queries. The word may depend on the regular expressions of the program, on what
carriers remember and on random numbers; the last two may change. -/
structure Dictionary where
  query : Query → Array Regex → CarrierState → Rng → Option String × CarrierState × Rng

/-! ## Syllables -/

def isVowel (c : Char) : Bool := ['a', 'e', 'i', 'o', 'u', 'y'].contains c

/-- The number of runs of vowels, given whether a vowel comes before. -/
def vowelRuns (afterVowel : Bool) : List Char → Nat
  | [] => 0
  | c :: cs => (if isVowel c && !afterVowel then 1 else 0) + vowelRuns (isVowel c) cs

/-- A rough count of syllables: runs of vowels, without a silent e at the end, and at least one. -/
def countSyllables (word : String) : Nat :=
  let cs := (Text.lower word).toList
  let runs := vowelRuns false cs
  let silent := 1 < runs && "e".toList.isSuffixOf cs && !"le".toList.isSuffixOf cs
  max 1 (if silent then runs - 1 else runs)

/-! ## Tables -/

/-- A word: one term for each subtype of the table, and its classes. -/
structure Entry where
  terms : List String
  classes : List String
deriving DecidableEq

structure Table where
  name : String
  subtypes : List String
  entries : List Entry
deriving DecidableEq

/-- The place of a subtype's term; the first one if no subtype is asked for. -/
def Table.subtypeIndex? (t : Table) : Option String → Option Nat
  | none => some 0
  | some name => t.subtypes.findIdx? (· == name)

/-- A dictionary of tables with different names. -/
structure WordList where
  tables : Std.TreeMap String Table := {}

namespace WordList

/-- Adds a table, in place of one of the same name. -/
def add (d : WordList) (t : Table) : WordList := ⟨d.tables.insert t.name t⟩

def ofTables (tables : List Table) : WordList := tables.foldl add {}

def passesClasses (q : Query) (e : Entry) : Bool :=
  q.classFilter.all (fun rules => rules.any fun r => r.required == e.classes.contains r.name)
    && (!q.exclusive ||
      e.classes.all fun c => q.classFilter.any fun rules => rules.any (·.name == c))

/-- A filter by an expression that the program does not have lets every word pass. -/
def passesRegexes (regexes : Array Regex) (q : Query) (term : String) : Bool :=
  q.regexFilters.all fun f =>
    match regexes[f.regex.toNat]? with
    | some r => r.matchesIn term == f.wanted
    | none => true

def passesSyllables (q : Query) (term : String) : Bool :=
  q.syllables.all (·.contains (countSyllables term))

def passesCarriers (carriers : CarrierState) (q : Query) (term : String) : Bool :=
  q.carriers.all fun c =>
    match c.kind with
    | .unique => !carriers.isUsed c.id term
    | .matchUnique => carriers.matched? c.id != some term
    | _ => true

/-- The words that may answer a query. -/
def candidates (t : Table) (subtype : Nat) (regexes : Array Regex) (carriers : CarrierState)
    (q : Query) : List String :=
  ((t.entries.filter (passesClasses q)).filterMap (·.terms[subtype]?)).filter fun term =>
    passesRegexes regexes q term && passesSyllables q term && passesCarriers carriers q term

/-- The word that a match carrier of the query remembers. -/
def remembered? (carriers : CarrierState) (q : Query) : Option String :=
  (q.carriers.filter (·.kind == .matchWord)).findSome? fun c => carriers.matched? c.id

/-- Answers a query: with the word a match carrier remembers, or else with a random one of the
candidates, which the carriers then remember. -/
def query (d : WordList) (q : Query) (regexes : Array Regex) (carriers : CarrierState) (rng : Rng) :
    Option String × CarrierState × Rng :=
  match q.table.bind (d.tables[·]?) with
  | none => (none, carriers, rng)
  | some t =>
    match t.subtypeIndex? q.subtype with
    | none => (none, carriers, rng)
    | some subtype =>
      match remembered? carriers q with
      | some word => (some word, carriers, rng)
      | none =>
        let words := candidates t subtype regexes carriers q
        match words with
        | [] => (none, carriers, rng)
        | _ :: _ =>
          let (i, rng) := rng.nextBelow words.length
          match words[i]? with
          | none => (none, carriers, rng)
          | some word => (some word, carriers.remember q.carriers word, rng)

def dictionary (d : WordList) : Dictionary := ⟨d.query⟩

end WordList

end Wordloom
