import Wordloom.Container.Save

/-!
# Wordloom.Container.Load

Programs from bytes. Code and strings have to be there; the other sections may be missing, and
sections with unknown identifiers are passed over. The imports of a loaded program are names that
have yet to be linked.
-/

namespace Wordloom.Container

open Bytes

/-! ## Errors -/

/-- What is wrong inside a section. -/
inductive Fault where
  | brokenDirectory (e : DecodeError)
  | badOffset (offset : Nat)
  | bytes (e : DecodeError)
  | utf8 (e : Text.Utf8Error)
  | wire (e : Wire.Error)
  | blockEnd (address : UInt32)
  | regex (e : Regex.Error)
deriving DecidableEq

def Fault.message : Fault → String
  | .brokenDirectory e => s!"broken section directory: {e.message}"
  | .badOffset offset => s!"offset {offset} is past the end of the data"
  | .bytes e => e.message
  | .utf8 e => e.message
  | .wire e => e.message
  | .blockEnd address => s!"block end {address} is outside of the code"
  | .regex e => e.message

inductive LoadError where
  | notAProgram
  | missingSection (id : SectionId)
  | unsupportedVersion (version : UInt16)
  | malformed (id : SectionId) (fault : Fault)
  | unresolvedImport (name : String)
deriving DecidableEq

def LoadError.message : LoadError → String
  | .notAProgram => "Not a valid program"
  | .missingSection id => s!"Invalid data format: the {id.name} section is missing"
  | .unsupportedVersion version =>
    s!"Unsupported format version {version}, the newest supported version is {formatVersion}"
  | .malformed id fault => s!"Invalid data format in the {id.name} section: {fault.message}"
  | .unresolvedImport name => s!"Unresolved import '{name}'"

/-! ## The directory -/

/-- A section that has been found: its identifier and the bytes from its offset to the end of the
container. -/
structure Section where
  id : SectionId
  cursor : Cursor
deriving DecidableEq

/-- Runs a decoder over a section. -/
def Section.decode (s : Section) (d : Decoder α) : Except LoadError α :=
  match d s.cursor with
  | .ok (a, _) => .ok a
  | .error e => .error (.malformed s.id (.bytes e))

/-- Reads a section in the compact encoding. -/
def Section.wire (s : Section) (get : Wire.Get α) : Except LoadError α :=
  match get s.cursor.bytes with
  | .ok (a, _) => .ok a
  | .error e => .error (.malformed s.id (.wire e))

/-- An entry of the directory: identifier and offset. -/
def entry : Decoder (UInt8 × Nat) := do
  let id ← Decoder.uint8
  return (id, (← Decoder.uint32).toNat)

/-- The sections that `count` entries at the cursor name. An offset is checked as soon as its entry
has been read. -/
def readDirectory (bytes : List UInt8) : Nat → Cursor → Except LoadError (List Section)
  | 0, _ => .ok []
  | count + 1, c =>
    match entry c with
    | .error e => .error (.malformed .version (.brokenDirectory e))
    | .ok ((byte, offset), c) =>
      match SectionId.ofByte? byte with
      | none => readDirectory bytes count c
      | some id =>
        if bytes.length < offset then .error (.malformed id (.badOffset offset))
        else (readDirectory bytes count c).map (⟨id, offset, bytes.drop offset⟩ :: ·)

/-- Takes out the first section of an identifier. The last of the sections moves into its place. -/
def takeSection (id : SectionId) (sections : List Section) : Option Section × List Section :=
  match sections.findIdx? (·.id == id), sections.getLast? with
  | some i, some last => (sections[i]?, (sections.set i last).dropLast)
  | _, _ => (none, sections)

/-! ## The sections -/

def readVersion (s : Section) : Except LoadError Unit := do
  let version ← s.decode Decoder.uint16
  if formatVersion < version then throw (.unsupportedVersion version)

def readCode (s : Section) : Except LoadError (Array UInt8) :=
  s.decode do return (← Decoder.take (← Decoder.uint32).toNat).toArray

/-- `count` texts, each with its length in front. -/
def readStringsFrom (id : SectionId) : Nat → Cursor → Except LoadError (List String)
  | 0, _ => .ok []
  | count + 1, c =>
    match (do Decoder.take (← Decoder.uint32).toNat : Decoder (List UInt8)) c with
    | .error e => .error (.malformed id (.bytes e))
    | .ok (bytes, c) =>
      match Text.ofUtf8 bytes with
      | .error e => .error (.malformed id (.utf8 e))
      | .ok s => (readStringsFrom id count c).map (s :: ·)

def readStrings (s : Section) : Except LoadError (List String) :=
  match Decoder.uint32 s.cursor with
  | .error e => .error (.malformed s.id (.bytes e))
  | .ok (count, c) => readStringsFrom s.id count.toNat c

/-- The block table. No block ends behind the code. -/
def readBlocks (codeSize : Nat) (s : Section) : Except LoadError (List Block) := do
  let blocks ← s.wire (Wire.list getBlock)
  match blocks.find? fun b => codeSize < b.endAddress.toNat with
  | some b => throw (.malformed s.id (.blockEnd b.endAddress))
  | none => return blocks

def readRegexes (s : Section) : Except LoadError (List Regex) := do
  (← readStrings s).mapM fun source =>
    match Regex.compile source with
    | .ok r => .ok r
    | .error e => .error (.malformed s.id (.regex e))

/-- Reads a section that may be missing. -/
def optional (read : Section → Except LoadError α) (default : α) :
    Option Section → Except LoadError α
  | some s => read s
  | none => .ok default

def required (id : SectionId) : Option Section → Except LoadError Section
  | some s => .ok s
  | none => .error (.missingSection id)

/-- Reads a program from the sections of a container. -/
def readProgram (sections : List Section) : Except LoadError Program := do
  let (version, sections) := takeSection .version sections
  optional readVersion () version
  let (code, sections) := takeSection .code sections
  let code ← readCode (← required .code code)
  let (strings, sections) := takeSection .strings sections
  let strings ← readStrings (← required .strings strings)
  let (blocks, sections) := takeSection .blocks sections
  let blocks ← optional (readBlocks code.size) [] blocks
  let (regexes, sections) := takeSection .regexes sections
  let regexes ← optional readRegexes [] regexes
  let (queries, sections) := takeSection .queries sections
  let queries ← optional (·.wire (Wire.list getQuery)) [] queries
  let (metadata, _) := takeSection .metadata sections
  let metadata ← optional (·.wire getMetadata) {} metadata
  return {
    name := metadata.name
    code := code
    strings := strings.toArray
    blocks := blocks.toArray
    regexes := regexes.toArray
    queries := queries.toArray
    referenceNames := metadata.imports.toArray }

/-- Reads a program. Its imports are not linked. -/
def load (bytes : List UInt8) : Except LoadError Program :=
  if bytes.take magic.length = magic then
    match Decoder.uint8 ⟨magic.length, bytes.drop magic.length⟩ with
    | .error e => .error (.malformed .version (.brokenDirectory e))
    | .ok (count, c) => do readProgram (← readDirectory bytes count.toNat c)
  else .error .notAProgram

end Wordloom.Container
