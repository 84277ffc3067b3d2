/-
Text in double quotes, as logs and error reports show it. The quote, the backslash and some
controls have short escapes, other characters that are hidden are written by their number in
hexadecimal, and everything else stands for itself.
-/
import LoopAsm.Text.Hidden
import LoopAsm.Text.Numeral

namespace LoopAsm.Quoted

/-- A character inside the quotes. -/
def escape (c : Char) : String :=
  match c with
  | '"' => "\\\""
  | '\\' => "\\\\"
  | '\t' => "\\t"
  | '\r' => "\\r"
  | '\n' => "\\n"
  | '\x00' => "\\0"
  | c =>
    if isHidden c then "\\u\x7b" ++ Numeral.hexadecimal c.toNat ++ "\x7d"
    else String.singleton c

/-- A text in double quotes. -/
def quote (s : String) : String :=
  "\"" ++ String.join (s.toList.map escape) ++ "\""

end LoopAsm.Quoted
