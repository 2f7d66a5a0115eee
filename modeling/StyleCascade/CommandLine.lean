import StyleCascade.Engine
import StyleCascade.Text.Unprintable

/-!
# The command line

A run takes the texts of two files, a style sheet and a node tree, or a list of trees,
and prints the computed styles of the restyled document. Both files are read before
either text is looked at. On an error nothing is printed; the log keeps what was told by
then.
-/
namespace StyleCascade.CommandLine

/-- What stands behind an argument. -/
inductive FileContent
  | notGiven
  | unreadable
  | text (content : String)
deriving DecidableEq, Repr

/-- Why a run fails. -/
inductive RunError
  | usage
  | unreadableFile
  | malformedTree (fault : Json.Fault)
  | style (error : StyleError)
deriving DecidableEq, Repr

structure Outcome where
  result : Except RunError String
  /-- All notices, in order. -/
  notices : List Notice

/-! ## Wording of errors -/

/-- A character as it stands in a quoted name. One that cannot be seen is written by its code
point. -/
def escaped (c : Char) : List Char :=
  match c with
  | '"' => ['\\', '"']
  | '\\' => ['\\', '\\']
  | '\t' => ['\\', 't']
  | '\n' => ['\\', 'n']
  | '\r' => ['\\', 'r']
  | '\x00' => ['\\', '0']
  | c =>
    if Text.isUnprintable c then
      '\\' :: 'u' :: '\x7b' :: Nat.toDigits 16 c.toNat ++ ['\x7d']
    else [c]

/-- A name between quotes. -/
def quoted (s : String) : String :=
  String.ofList ('"' :: s.toList.flatMap escaped ++ ['"'])

/-- The text of an error: its kind, and what it is about. -/
def RunError.text : RunError → String
  | usage => quoted "usage: quickstyle <stylesheet.json> <tree.json>"
  | unreadableFile => "Io"
  | malformedTree _ => "Json"
  | style (.json _) => "Json"
  | style (.notAnObject what) => s!"NotAnObject({quoted what})"
  | style (.invalidDeclaration selector) => s!"InvalidDeclaration({quoted selector})"
  | style .invalidMediaList => "InvalidMediaList"
  | style (.invalidAtRule name) => s!"InvalidAtRule({quoted name})"

/-! ## Running -/

/-- The trees of a text that holds one or a list of them. -/
def treesOf : Json → List Json
  | .array trees => trees
  | tree => [tree]

/-- Builds the trees of a text under the root. -/
def buildTrees (e : Engine) (text : String) : Except RunError Unit × Engine :=
  match Json.ofString text with
  | .error fault => (.error (.malformedTree fault), e)
  | .ok tree =>
    let (result, e) := Engine.buildEach (fun e tree => e.build .root tree) e (treesOf tree)
    (result.mapError .style, e)

/-- Restyles what was built and prints it, with a line break at the end. -/
def printStyles (e : Engine) : Outcome :=
  let (count, e) := e.restyleDirty
  let (styles, e) := (e.note (.restyled count)).dumpNoted
  ⟨.ok (styles.indented ++ "\n"), e.journal⟩

/-- Runs on the texts of a sheet and of a tree. -/
def runTexts (config : EngineConfig) (sheet tree : String) : Outcome :=
  match (Engine.new config).load sheet with
  | (.error error, e) => ⟨.error (.style error), e.journal⟩
  | (.ok _, e) =>
    match buildTrees e tree with
    | (.error error, e) => ⟨.error error, e.journal⟩
    | (.ok (), e) => printStyles e

/-- Runs on what stands behind the two arguments. The tree counts as an argument only
behind the sheet. -/
def run (config : EngineConfig) (sheet tree : FileContent) : Outcome :=
  match sheet, tree with
  | .notGiven, _ | _, .notGiven => ⟨.error .usage, []⟩
  | .unreadable, _ | _, .unreadable => ⟨.error .unreadableFile, []⟩
  | .text sheet, .text tree => runTexts config sheet tree

/-- The notices that a log of the configured level shows. -/
def Outcome.log (o : Outcome) (level : LogLevel) : List Notice :=
  o.notices.filter (·.shown level)

end StyleCascade.CommandLine
