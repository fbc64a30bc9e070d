import SfcTsx.Text.Space

namespace SfcTsx.Json

/-- What the next character is part of. -/
inductive Region where
  | plain
  | string
  | lineComment
  | blockComment
deriving DecidableEq, Repr

/-- Takes a comma off the end of a text in reverse; white space may stand behind it. -/
def dropComma (done : Text) : Text :=
  match done.dropWhile Text.isSpace with
  | ',' :: rest => done.takeWhile Text.isSpace ++ rest
  | _ => done

/-- Adds a text to what is `done`, which is in reverse. -/
def stripFrom (done : Text) : Region → Text → Text
  | _, [] => done
  | .string, '\\' :: c :: rest => stripFrom (c :: '\\' :: done) .string rest
  | .string, c :: rest => stripFrom (c :: done) (if c = '"' then .plain else .string) rest
  | .lineComment, c :: rest =>
    if c = '\n' then stripFrom (c :: done) .plain rest else stripFrom done .lineComment rest
  | .blockComment, '*' :: '/' :: rest => stripFrom done .plain rest
  | .blockComment, _ :: rest => stripFrom done .blockComment rest
  | .plain, '/' :: '/' :: rest => stripFrom done .lineComment rest
  | .plain, '/' :: '*' :: rest => stripFrom done .blockComment rest
  | .plain, c :: rest =>
    if c = '"' then stripFrom (c :: done) .string rest
    else if c = '}' ∨ c = ']' then stripFrom (c :: dropComma done) .plain rest
    else stripFrom (c :: done) .plain rest

/-- The text without comments, and without commas in front of a closing bracket. -/
def stripComments (t : Text) : Text := (stripFrom [] .plain t).reverse

end SfcTsx.Json
