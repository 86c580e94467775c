import Monkey.Text.Quoted

/-!
# Command-line arguments

Two options are known: help, and the file to run. A long option may be abbreviated, and may take its
argument behind an equality sign; a short option may take it directly. The last file counts.
Everything else is left over and refused in the end, unless help is asked for before.

A word that begins with a dash is an option unless it is a lone dash, looks like a negative number,
or has a space in it. Behind `--` no word is an option.
-/

namespace Monkey

namespace Command

/-- The options. -/
inductive Flag where
  | help
  | file
  deriving DecidableEq, Repr

/-- The spellings of the options. -/
def spellings : List (String × Flag) :=
  [("-h", .help), ("--help", .help), ("-f", .file), ("--file", .file)]

/-- How an option was written. -/
structure Spelling where
  flag : Flag
  /-- Whether it is a short option. -/
  short : Bool
  /-- What is written in the same word behind the option, and whether an equality sign divides
  the two. -/
  attached : Option (Bool × String)
  deriving DecidableEq, Repr

/-- What a word of the command line is. -/
inductive Word where
  | plain (text : String)
  | option (text : String) (spelling : Spelling)
  /-- A word that looks like an option and is none. -/
  | unknown (text : String)
  /-- The word `--`, or one behind it. -/
  | divider (text : String)
  deriving DecidableEq, Repr

/-- What is wrong with a command line. -/
inductive UsageError where
  /-- The file option has no argument. -/
  | missingFile
  /-- An argument is attached to the help option. -/
  | uselessArgument (text : String)
  /-- An abbreviation fits several options. -/
  | ambiguous (text : String) (options : List String)
  /-- Words are left over. -/
  | unrecognized (texts : List String)
  deriving DecidableEq, Repr

/-- The wording of a usage error. -/
def UsageError.message : UsageError → String
  | missingFile => "argument -f/--file: expected one argument"
  | uselessArgument text =>
    "argument -h/--help: ignored explicit argument " ++ Text.quoted text
  | ambiguous text options =>
    "ambiguous option: " ++ text ++ " could match " ++ ", ".intercalate options
  | unrecognized texts => "unrecognized arguments: " ++ " ".intercalate texts

/-- What the command line asks for. -/
inductive Request where
  | help
  | interactive
  | file (name : String)
  deriving DecidableEq, Repr

/-! ## Words -/

/-- The parts before and behind the first equality sign; the second is absent if there is none. -/
def splitEquals (cs : List Char) : List Char × Option (List Char) :=
  match cs.dropWhile (· ≠ '=') with
  | [] => (cs, none)
  | _ :: behind => (cs.takeWhile (· ≠ '='), some behind)

/-- An option with what is attached to it by an equality sign. -/
def spelled (name : String) (flag : Flag) (behind : Option (List Char)) : Spelling :=
  ⟨flag, name.length = 2, behind.map fun cs => (true, String.ofList cs)⟩

/-- Whether digits come first and nothing else follows. -/
def isDigits (cs : List Char) : Bool := cs ≠ [] && cs.all Char.isDigit

/-- Whether a word is a negative number: a dash, digits, and perhaps a point with digits behind it. -/
def isNegativeNumber : List Char → Bool
  | '-' :: cs =>
    isDigits cs ||
      ((cs.takeWhile Char.isDigit ++ ['.']).isPrefixOf cs &&
        isDigits (cs.drop ((cs.takeWhile Char.isDigit).length + 1)))
  | _ => false

/-- A word that begins with a dash and matches no option. -/
def unmatched (text : String) : Word :=
  if isNegativeNumber text.toList || text.toList.contains ' ' then .plain text else .unknown text

/-- A word that begins with two dashes and is not spelled exactly like an option: perhaps the
beginning of one. -/
def abbreviation (text : String) : Except UsageError Word :=
  let (name, behind) := splitEquals text.toList
  match spellings.filter fun (full, _) => name.isPrefixOf full.toList with
  | [] => .ok (unmatched text)
  | [(full, flag)] => .ok (.option text (spelled full flag behind))
  | several => .error (.ambiguous text (several.map Prod.fst))

/-- A word that begins with one dash and is not spelled exactly like an option: perhaps a short
option with something attached. -/
def shortOption (text : String) : Word :=
  match spellings.lookup (String.ofList (text.toList.take 2)) with
  | some flag => .option text ⟨flag, true, some (false, String.ofList (text.toList.drop 2))⟩
  | none => unmatched text

/-- What a word is, before `--`. -/
def classify (text : String) : Except UsageError Word :=
  match text.toList with
  | '-' :: second :: _ =>
    let (name, behind) := splitEquals text.toList
    match spellings.lookup text, spellings.lookup (String.ofList name) with
    | some flag, _ => .ok (.option text (spelled text flag none))
    | none, some flag => .ok (.option text (spelled (String.ofList name) flag behind))
    | none, none => if second = '-' then abbreviation text else .ok (shortOption text)
  | _ => .ok (.plain text)

/-- What the words of a command line are. -/
def classifyAll : List String → Except UsageError (List Word)
  | [] => .ok []
  | text :: texts =>
    if text = "--" then .ok ((text :: texts).map .divider)
    else do return (← classify text) :: (← classifyAll texts)

/-! ## The request -/

/-- The next word, if it can be the argument of an option. -/
def plainText? : List Word → Option String
  | .plain text :: _ => some text
  | _ => none

/-- What is written behind a short help option: further short options. The answer is a request for
help, unless something is wrong. -/
def helpWith (following : List Word) : Bool → List Char → Except UsageError Request
  | _, [] => .ok .help
  | divided, c :: cs =>
    if divided || c = '-' then .error (.uselessArgument (String.ofList (c :: cs)))
    else if c = 'f' then
      if cs = [] && (plainText? following).isNone then .error .missingFile else .ok .help
    else if c = 'h' then
      match cs with
      | '=' :: [] => .error (.uselessArgument "")
      | '=' :: behind => .error (.uselessArgument (String.ofList behind))
      | cs => helpWith following false cs
    else .ok .help

/-- A request for help with something attached. -/
def helpRequest (following : List Word) (spelling : Spelling) : Except UsageError Request :=
  match spelling.attached with
  | none => .ok .help
  | some (divided, text) =>
    if spelling.short && text ≠ "" then helpWith following divided text.toList
    else .error (.uselessArgument text)

/-- The request of classified words: the file so far, and the words that are left over so far. -/
def requestOf (file? : Option String) (extras : List String) :
    List Word → Except UsageError Request
  | [] =>
    if extras ≠ [] then .error (.unrecognized extras)
    else .ok (file?.elim .interactive .file)
  | .plain text :: words => requestOf file? (extras ++ [text]) words
  | .unknown text :: words => requestOf file? (extras ++ [text]) words
  | .divider text :: words => requestOf file? (extras ++ [text]) words
  | .option _ ⟨.file, _, some (_, name)⟩ :: words => requestOf (some name) extras words
  | .option _ ⟨.file, _, none⟩ :: .plain name :: words => requestOf (some name) extras words
  | .option _ ⟨.file, _, none⟩ :: _ => .error .missingFile
  | .option _ spelling :: words => helpRequest words spelling

/-- What a command line asks for. -/
def Request.ofArguments (arguments : List String) : Except UsageError Request := do
  requestOf none [] (← classifyAll arguments)

/-! ## Texts -/

/-- The name under which the command speaks of itself. -/
def programName : String := "Execute Monkey Language code."

/-- How the command is used, in one line. -/
def usage : String := "usage: " ++ programName ++ " [-h] [-f file]\n"

/-- The answer to a request for help. -/
def helpText : String :=
  usage ++ "\noptions:\n" ++
    "  -h, --help            show this help message and exit\n" ++
    "  -f file, --file file  Path to the Monkey Language file.\n"

/-- The answer to a command line with an error. -/
def usageText (e : UsageError) : String :=
  usage ++ programName ++ ": error: " ++ e.message ++ "\n"

end Command

end Monkey
