import Patricia.Text.DecimalDigit

/-
  What the arguments of a command look like.

  Before a command reads its arguments each is classified by its form: a known option, perhaps
  with a value or further letters in the same argument; something that only looks like an option;
  the marker `--`, behind which nothing is an option any more; or a plain word. A long option may
  be shortened as long as only one begins that way.
-/

namespace Patricia.Cli

/-- A spelling of an option. -/
structure Spelling (ι : Type) where
  text : List Char
  option : ι

/-- What stands behind an option in the same argument. -/
inductive Attached
  | nothing
  /-- The text behind a long option and an equals sign. -/
  | value (text : List Char)
  /-- The characters behind an option of one letter; an equals sign in front of them does not
  count. -/
  | letters (text : List Char)
deriving DecidableEq

/-- An argument by its form. -/
inductive Word (ι : Type)
  | plain (text : String)
  | marker
  | known (option : ι) (attached : Attached)
  | unknown
deriving DecidableEq

variable {ι : Type}

/-- The option with exactly this spelling. -/
def spelled? (spellings : List (Spelling ι)) (text : List Char) : Option ι :=
  (spellings.find? (fun s => s.text == text)).map Spelling.option

/-- A minus sign with digits, or with a point between or before digits; a line end may follow. -/
def isNegativeNumber : List Char → Bool
  | '-' :: rest =>
    let body := if rest.getLast? = some '\n' then rest.dropLast else rest
    let behind := body.dropWhile Text.isDecimalDigit
    match behind with
    | [] => !body.isEmpty
    | '.' :: places => !places.isEmpty && places.all Text.isDecimalDigit
    | _ => false
  | _ => false

/-- What stands behind a name, given with the equals sign, if there is one. -/
def Attached.behind (name : List Char) : List Char → Attached
  | [] => .nothing
  | _ :: text => if "--".toList.isPrefixOf name then .value text else .letters text

/-- The options that an argument may shorten, each with what stands behind it. -/
def candidates (spellings : List (Spelling ι)) (arg name : List Char) (attached : Attached) :
    List (Word ι) :=
  match arg with
  | '-' :: '-' :: _ =>
    (spellings.filter (fun s => name.isPrefixOf s.text)).map (fun s => .known s.option attached)
  | sign :: letter :: rest =>
    match spelled? spellings [sign, letter] with
    | some option => [.known option (.letters rest)]
    | none => []
  | _ => []

/-- The form of one argument in front of the marker; none if it may shorten several options. -/
def classify (spellings : List (Spelling ι)) (arg : String) : Option (Word ι) :=
  let text := arg.toList
  if text.head? ≠ some '-' ∨ text = ['-'] then some (.plain arg)
  else
    match spelled? spellings text with
    | some option => some (.known option .nothing)
    | none =>
      let name := text.takeWhile (· != '=')
      let attached := Attached.behind name (text.dropWhile (· != '='))
      match spelled? spellings name with
      | some option => some (.known option attached)
      | none =>
        match candidates spellings text name attached with
        | [] =>
          if isNegativeNumber text || text.contains ' ' then some (.plain arg) else some .unknown
        | [word] => some word
        | _ => none

/-- All arguments with their forms. -/
def classifyAll (spellings : List (Spelling ι)) : List String → Option (List (String × Word ι))
  | [] => some []
  | arg :: rest =>
    if arg = "--" then some ((arg, .marker) :: rest.map (fun a => (a, .plain a)))
    else
      match classify spellings arg, classifyAll spellings rest with
      | some word, some words => some ((arg, word) :: words)
      | _, _ => none

/-- What stands behind an option that takes no value is in order: nothing, or letters each of
which is such an option again. -/
def Attached.fitsFlag (flags : List Char) : Attached → Bool
  | .nothing => true
  | .value _ => false
  | .letters text => !text.isEmpty && text.all flags.contains

end Patricia.Cli
