import Wordloom.Text.Hex
import Wordloom.Text.Printable

/-!
# Wordloom.Text.Quoted

Text between double quotes, as listings show it: a quote and a backslash are escaped, the common
controls by a letter, and every other character that cannot be shown by its code point.
-/

namespace Wordloom.Text

def quoteChar (c : Char) : String :=
  match c with
  | '\x00' => "\\0"
  | '\t' => "\\t"
  | '\n' => "\\n"
  | '\r' => "\\r"
  | '"' => "\\\""
  | '\\' => "\\\\"
  | c => if isPrintable c then c.toString else "\\u\x7b" ++ hex 1 c.toNat ++ "\x7d"

def quote (s : String) : String :=
  s.toList.foldl (fun out c => out ++ quoteChar c) "\"" ++ "\""

end Wordloom.Text
