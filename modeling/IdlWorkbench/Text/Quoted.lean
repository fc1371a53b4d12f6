import IdlWorkbench.Text.HiddenTable

/-!
# Quoted texts in messages

A quoted text stands between double quotes. Quotes, backslashes and common control characters are written
with a backslash, and a character without a visible form as its number.
-/

namespace IdlWorkbench.Text

def isHidden (c : Char) : Bool := hiddenRanges.any fun (first, last) => first ≤ c.toNat && c.toNat ≤ last

def quotedChar (c : Char) : String :=
  if c = '"' then "\\\""
  else if c = '\\' then "\\\\"
  else if c = '\n' then "\\n"
  else if c = '\r' then "\\r"
  else if c = '\t' then "\\t"
  else if c.toNat = 0 then "\\0"
  else if isHidden c then "\\u\x7b" ++ String.ofList (Nat.toDigits 16 c.toNat) ++ "\x7d"
  else String.ofList [c]

def quoted (s : String) : String := "\"" ++ String.join (s.toList.map quotedChar) ++ "\""

end IdlWorkbench.Text
