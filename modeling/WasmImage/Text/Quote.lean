import WasmImage.Text.Hex
import WasmImage.Text.Printable

/-!
Double-quoted string literals: printable characters stand for themselves, a quote and a
backslash are escaped, the usual control characters get their one-letter escapes, other
control bytes are written `\xHH`, and other characters that do not print are written `\uHHHH`
or `\UHHHHHHHH`.
-/

namespace WasmImage.Quote

/-- The quoted form of one character. -/
def escape (c : Char) : String :=
  match c with
  | '"' => "\\\""
  | '\\' => "\\\\"
  | '\n' => "\\n"
  | '\r' => "\\r"
  | '\t' => "\\t"
  | _ =>
    let n := c.toNat
    if n = 7 then "\\a"
    else if n = 8 then "\\b"
    else if n = 12 then "\\f"
    else if n = 11 then "\\v"
    else if n < 0x20 || n = 0x7f then "\\x" ++ Hex.padded 2 n
    else if n < 0x80 then String.singleton c
    else if Printable.prints c then String.singleton c
    else if n < 0x10000 then "\\u" ++ Hex.padded 4 n
    else "\\U" ++ Hex.padded 8 n

/-- The string `s` between double quotes, escaped. -/
def quote (s : String) : String :=
  "\"" ++ s.toList.foldl (fun acc c => acc ++ escape c) "" ++ "\""

end WasmImage.Quote
