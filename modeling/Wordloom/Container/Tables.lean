import Wordloom.Container.Wire
import Wordloom.Program

/-!
# Wordloom.Container.Tables

Blocks, queries and metadata in the compact encoding.
-/

namespace Wordloom.Container

open Wire

/-! ## Blocks -/

def putWeight : Weight → List UInt8
  | .none => putVarint 0
  | .constant bits => putVarint 1 ++ putUInt64Fixed bits
  | .interpreted offset => putVarint 2 ++ putUInt32 offset

def getWeight : Get Weight := do
  match ← tag with
  | 0 => return .none
  | 1 => return .constant (← uint64Fixed)
  | 2 => return .interpreted (← uint32)
  | _ => throw .badTag

def putBlock (b : Block) : List UInt8 :=
  putUInt32 b.endAddress ++
    putList (fun item => putUInt32 item.offset ++ putWeight item.weight) b.items

def getBlock : Get Block := do
  let endAddress ← uint32
  let items ← list do
    let offset ← uint32
    return ⟨offset, ← getWeight⟩
  return ⟨endAddress, items⟩

/-! ## Queries -/

def putCarrier (c : Carrier) : List UInt8 :=
  putVarint (CarrierKind.all.idxOf c.kind) ++ putString c.id

def getCarrier : Get Carrier := do
  match CarrierKind.all[← tag]? with
  | some kind => return ⟨kind, ← string⟩
  | none => throw .badTag

def putClassRule (r : ClassRule) : List UInt8 := putString r.name ++ putBool r.required

def getClassRule : Get ClassRule := do
  let name ← string
  return ⟨name, ← bool⟩

def putRegexFilter (f : RegexFilter) : List UInt8 := putBool f.wanted ++ putUInt32 f.regex

def getRegexFilter : Get RegexFilter := do
  let wanted ← bool
  return ⟨wanted, ← uint32⟩

def putSyllables (r : SyllableRange) : List UInt8 :=
  putOption putUInt32 r.min ++ putOption putUInt32 r.max

def getSyllables : Get SyllableRange := do
  let min ← option uint32
  return ⟨min, ← option uint32⟩

def putQuery (q : Query) : List UInt8 :=
  putOption putString q.table ++ putBool q.exclusive ++ putList (putList putClassRule) q.classFilter
    ++ putList putRegexFilter q.regexFilters ++ putOption putSyllables q.syllables
    ++ putOption putString q.subtype ++ putList putCarrier q.carriers

def getQuery : Get Query := do
  let table ← option string
  let exclusive ← bool
  let classFilter ← list (list getClassRule)
  let regexFilters ← list getRegexFilter
  let syllables ← option getSyllables
  let subtype ← option string
  let carriers ← list getCarrier
  return { table, exclusive, classFilter, regexFilters, syllables, subtype, carriers }

/-! ## Metadata -/

/-- A program's name and the names of its imports. -/
structure Metadata where
  name : String := ""
  imports : List String := []
deriving DecidableEq

def putMetadata (m : Metadata) : List UInt8 := putString m.name ++ putList putString m.imports

def getMetadata : Get Metadata := do
  let name ← string
  return ⟨name, ← list string⟩

end Wordloom.Container
