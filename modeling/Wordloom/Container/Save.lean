import Wordloom.Container.Tables

/-!
# Wordloom.Container.Save

Programs as bytes. A container begins with a mark and a directory of sections, which gives the
identifier and the offset of each; the bodies of the sections follow. What a program calls is
stored by name only.
-/

namespace Wordloom.Container

/-- The bytes that every container begins with: `RPTN`. -/
def magic : List UInt8 := [0x52, 0x50, 0x54, 0x4e]

/-- The version that is written, and the newest that is read. -/
def formatVersion : UInt16 := 1

inductive SectionId where
  | version
  | code
  | strings
  | blocks
  | regexes
  | queries
  | metadata
deriving DecidableEq

namespace SectionId

def all : List SectionId := [.version, .code, .strings, .blocks, .regexes, .queries, .metadata]

def toByte (id : SectionId) : UInt8 := UInt8.ofNat (all.idxOf id)

def ofByte? (b : UInt8) : Option SectionId := all[b.toNat]?

/-- How a section is named in messages. -/
def name : SectionId → String
  | .version => "version"
  | .code => "code"
  | .strings => "string"
  | .blocks => "block"
  | .regexes => "regex"
  | .queries => "query"
  | .metadata => "metadata"

end SectionId

/-- A section's identifier and body. -/
abbrev RawSection := UInt8 × List UInt8

/-- A natural number as four bytes, whatever of it they can hold. -/
def putLength (n : Nat) : List UInt8 := Bytes.ofNat 4 n

/-- Texts as bytes, each with its length in front. -/
def putStrings (strings : List String) : List UInt8 :=
  putLength strings.length
    ++ strings.flatMap fun s => let bytes := Text.toUtf8 s; putLength bytes.length ++ bytes

/-- The directory entries of sections whose bodies begin at `offset`. -/
def directory (offset : Nat) : List RawSection → List UInt8
  | [] => []
  | (id, body) :: sections => id :: putLength offset ++ directory (offset + body.length) sections

/-- The length of what comes before the bodies of `count` sections. -/
def headerLength (count : Nat) : Nat := magic.length + 1 + count * 5

/-- A container of the given sections. -/
def assemble (sections : List RawSection) : List UInt8 :=
  magic ++ UInt8.ofNat sections.length :: directory (headerLength sections.length) sections
    ++ sections.flatMap (·.2)

/-- A section that is left out when there is nothing to put in it. -/
def unlessEmpty (id : SectionId) (table : Array α) (body : List UInt8) : List RawSection :=
  if table.isEmpty then [] else [(id.toByte, body)]

/-- The sections of a program. -/
def sectionsOf (p : Program) : List RawSection :=
  [(SectionId.version.toByte, Bytes.ofUInt16 formatVersion),
    (SectionId.code.toByte, putLength p.code.size ++ p.code.toList),
    (SectionId.strings.toByte, putStrings p.strings.toList)]
  ++ unlessEmpty .blocks p.blocks (Wire.putList putBlock p.blocks.toList)
  ++ unlessEmpty .regexes p.regexes (putStrings (p.regexes.toList.map (·.source)))
  ++ unlessEmpty .queries p.queries (Wire.putList putQuery p.queries.toList)
  ++ [(SectionId.metadata.toByte, putMetadata ⟨p.name, p.referenceNames.toList⟩)]

/-- The bytes of a program. -/
def save (p : Program) : List UInt8 := assemble (sectionsOf p)

end Wordloom.Container
