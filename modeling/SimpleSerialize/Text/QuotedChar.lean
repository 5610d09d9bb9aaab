/-!
A character of the first 256 code points between single quotes, with everything that does not
print written as an escape.
-/

namespace SimpleSerialize.Text

/-- Controls, the no-break space and the soft hyphen leave no mark of their own. -/
def printsLatin1 (c : Char) : Bool :=
  let n := c.toNat
  (0x20 ≤ n && n < 0x7f) || (0xa1 ≤ n && n != 0xad)

def hexDigitsLower (n : Nat) : String :=
  String.ofList (Nat.toDigits 16 n)

def quotedChar (c : Char) : String :=
  let body :=
    match c with
    | '\x00' => "\\0"
    | '\t' => "\\t"
    | '\r' => "\\r"
    | '\n' => "\\n"
    | '\'' => "\\'"
    | '\\' => "\\\\"
    | c =>
      if printsLatin1 c then String.singleton c
      else "\\u\x7b" ++ hexDigitsLower c.toNat ++ "\x7d"
  "'" ++ body ++ "'"

end SimpleSerialize.Text
