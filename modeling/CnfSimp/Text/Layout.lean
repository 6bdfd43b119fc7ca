/-!
# Layout of values in text

Right-aligned columns, bracketed lists and sets, records with named fields, and hexadecimal numbers.
-/

namespace CnfSimp.Text

/-- Right-aligns a text in a column; a longer text is kept whole. -/
def alignRight (width : Nat) (s : String) : String :=
  String.ofList (List.replicate (width - s.length) ' ') ++ s

/-- A list in square brackets. -/
def bracketed (items : List String) : String :=
  "[" ++ ", ".intercalate items ++ "]"

/-- A set in braces. -/
def braced (items : List String) : String :=
  "\x7b" ++ ", ".intercalate items ++ "\x7d"

/-- A record: its name, then its fields in braces. -/
def record (name : String) (fields : List (String × String)) : String :=
  let items := fields.map fun (field, value) => field ++ ": " ++ value
  name ++ " \x7b " ++ ", ".intercalate items ++ " \x7d"

/-- A number in lower-case hexadecimal digits behind `0x`. -/
def hexadecimal (n : Nat) : String :=
  "0x" ++ String.ofList (Nat.toDigits 16 n)

end CnfSimp.Text
