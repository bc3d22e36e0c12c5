import Plume.Text.Base64
import Plume.Text.Utf8

/-!
# Scripts in links

A link carries a script as the Base64 of its UTF-8. An unpaired surrogate is written as the
replacement character; a byte order mark in front is lost when a link is read.
-/

namespace Plume.Link

/-- A script as it stands in a link. -/
def encode (script : Text) : Text := Base64.encode (Utf8.encode script.characters)

/-- The characters without one byte order mark in front. -/
def withoutMark : List Char → List Char
  | c :: rest => if c == '\ufeff' then rest else c :: rest
  | [] => []

/-- The script that stands in a link, if the text is Base64. -/
def decode? (encoded : Text) : Option Text :=
  (Base64.decode? encoded).map fun bytes => Text.ofChars (withoutMark (Utf8.decode bytes))

/-- Why a link cannot be read. -/
inductive Invalid where
  | notBase64
  deriving DecidableEq

/-- The script in the query of a link, which starts with a question mark. A query without anything
behind it has no script. -/
def ofQuery (search : Text) : Except Invalid (Option Text) :=
  if search.length ≤ 1 then .ok none
  else
    match decode? (search.drop 1) with
    | some script => .ok (some script)
    | none => .error .notBase64

end Plume.Link
