import Plume.Text.Basic

/-!
# Options on the command line

`-e SOURCE`, `-e=SOURCE`, `--eval SOURCE` and `--eval=SOURCE` give a source; `--ast`, `--no-ast` and
`--ast=VALUE` say whether its tree is shown, of which the last one counts; any other argument is a
file. The variables `PLUME_EVAL` and `PLUME_AST` stand in for options that are not given.
-/

namespace Plume.Console

/-- What an argument is. -/
inductive Argument where
  /-- `-e` or `--eval`. The source is the next argument, if that is no option. -/
  | evaluate (short : Bool)
  /-- A source. -/
  | source (text : Text)
  /-- `--ast`. The next argument is its value, if that is `true` or `false`. -/
  | ast
  /-- Whether the tree is shown. -/
  | showTree (value : Bool)
  /-- A file. -/
  | file (path : Text)
  deriving DecidableEq

namespace Argument

/-- A truth value as an option or a variable writes it. -/
def flag (t : Text) : Bool := t == Text.ofString "true"

/-- What follows `lead` in a text that starts with it. -/
def after? (lead t : Text) : Option Text :=
  if lead.isPrefixOf t then some (t.drop lead.length) else none

/-- A text without the quotes around it, if it stands between two single or two double quotes. -/
def unquoted : Text → Text
  | [] => []
  | quote :: rest =>
    if (quote == 0x22 || quote == 0x27) && rest.getLast? == some quote then rest.dropLast
    else quote :: rest

/-- The meaning of an argument. Behind the equals sign of a long option, quotes around the value are
left out. -/
def ofText (t : Text) : Argument :=
  if t == Text.ofString "-e" then .evaluate true
  else if t == Text.ofString "--eval" then .evaluate false
  else if t == Text.ofString "--ast" then .ast
  else if t == Text.ofString "--no-ast" then .showTree false
  else
    match after? "--eval=" t, after? "--ast=" t, after? "-e=" t with
    | some text, _, _ => .source (unquoted text)
    | none, some value, _ => .showTree (flag (unquoted value))
    | none, none, some (first :: rest) => .source (first :: rest)
    | none, none, _ => .file t

/-- The hyphen, with which options start. -/
def hyphen : CodeUnit := 0x2D

/-- Whether a text is a negative number: a hyphen, and digits with or without a fraction or a
fraction alone. -/
def isNegativeNumber : Text → Bool
  | [] => false
  | sign :: rest =>
    let whole := rest.takeWhile CodeUnit.isDigit
    sign == hyphen &&
      match rest.drop whole.length with
      | [] => !whole.isEmpty
      | point :: fraction => point == 0x2E && !fraction.isEmpty && fraction.all CodeUnit.isDigit

/-- Whether a text looks like an option: one hyphen or two, and then something else. -/
def isOptionLike : Text → Bool
  | a :: b :: [] => a == hyphen && b != hyphen
  | a :: b :: c :: _ => a == hyphen && (b != hyphen || c != hyphen)
  | _ => false

/-- Whether an argument is the source for the option before it. Behind `-e` it must not look like an
option, behind `--eval` it must not even start with a hyphen; but a negative number is a source. -/
def isSource (short : Bool) (t : Text) : Bool :=
  isNegativeNumber t || !(if short then isOptionLike t else t.head? == some hyphen)

/-- Whether an argument is the value of the `--ast` before it. -/
def isFlag (t : Text) : Bool := flag t || t == Text.ofString "false"

end Argument

/-- The options on a command line. -/
structure Options where
  source : Option Text
  file : Option Text
  showTree : Option Bool
  deriving DecidableEq

/-- What a command line calls for. -/
inductive Action where
  | script (source : Text) (showTree : Bool)
  | file (path : Text) (showTree : Bool)
  | menu
  deriving DecidableEq

namespace Options

/-- No options. -/
def empty : Options := ⟨none, none, none⟩

/-- The options that arguments add. An option without a source gives the empty one. -/
def ofArguments (options : Options) : List Text → Options
  | [] => options
  | argument :: rest =>
    match Argument.ofText argument, rest with
    | .source source, rest => ofArguments { options with source := some source } rest
    | .showTree value, rest => ofArguments { options with showTree := some value } rest
    | .file path, rest => ofArguments { options with file := some path } rest
    | .evaluate _, [] => { options with source := some [] }
    | .evaluate short, next :: rest =>
      if Argument.isSource short next then ofArguments { options with source := some next } rest
      else ofArguments { options with source := some [] } (next :: rest)
    | .ast, [] => { options with showTree := some true }
    | .ast, next :: rest =>
      if Argument.isFlag next then
        ofArguments { options with showTree := some (Argument.flag next) } rest
      else ofArguments { options with showTree := some true } (next :: rest)

/-- What options call for, with the values of `PLUME_EVAL` and `PLUME_AST` for those not given. A
source goes before a file. -/
def action (options : Options) (evalVariable treeVariable : Option Text) : Action :=
  let showTree := (options.showTree <|> treeVariable.map Argument.flag).getD false
  match options.source <|> evalVariable, options.file with
  | some source, _ => .script source showTree
  | none, some path => .file path showTree
  | none, none => .menu

end Options

end Plume.Console
