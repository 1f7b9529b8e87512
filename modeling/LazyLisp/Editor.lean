import LazyLisp.Outline
import LazyLisp.Text.Lines

/-!
# Editor support

What an editor shows about the documents that are open in it: diagnostics, explanations of the word
under the cursor, completions and document symbols. Everything follows from the outline of a
document; nothing is evaluated.
-/

set_option autoImplicit false

namespace LazyLisp

namespace Editor

/-- The characters that end a word. -/
def isDelimiter (char : Char) : Bool :=
  [' ', '\t', '(', ')', '[', ']', '\n', '\r', '"', '\''].contains char

/-- The word that the cursor at a character of a line touches: the run of word characters before the
cursor and the one after it. A cursor behind the line touches the end of the line. -/
def wordIn (line : Text) (character : Nat) : Text :=
  let before := ((line.take character).reverse.takeWhile fun char => !isDelimiter char).reverse
  let after := (line.drop character).takeWhile fun char => !isDelimiter char
  before ++ after

theorem isDelimiter_of_mem_wordIn {line : Text} {character : Nat} {char : Char}
    (member : char ∈ wordIn line character) : isDelimiter char = false := by
  simp only [wordIn, List.mem_append, List.mem_reverse] at member
  rcases member with before | after
  · simpa using List.all_eq_true.mp List.all_takeWhile char before
  · simpa using List.all_eq_true.mp List.all_takeWhile char after

/-- The word at a line and a character of a text, if there is one. -/
def wordAt? (text : Text) (line character : Nat) : Option Text :=
  match (Text.editorLines text)[line]? with
  | none => none
  | some content =>
    match wordIn content character with
    | [] => none
    | word => some word

/-- The calls of the operators, with remarks. -/
def operatorHelp : List (String × String) :=
  [("+", "(+ &rest nums) ; 0 when empty"),
    ("-", "(- x &rest nums) ; negates a single argument"),
    ("*", "(* &rest nums) ; 0 when empty"),
    ("/", "(/ x &rest nums) ; reciprocal of a single argument"),
    ("%", "(% x y)"),
    ("=", "(= a b &rest more)"),
    ("not", "(not bool)"),
    ("and", "(and &rest bools)"),
    ("or", "(or &rest bools)"),
    ("count", "(count pred list)")]

/-- The shapes of the special forms. -/
def formHelp : List (String × String) :=
  [("if", "(if condition then [else])"),
    ("def", "(def name expr)"),
    ("fn", "(fn [formals] body)"),
    ("cond", "(cond test expr ... [default])")]

structure Span where
  start : Text.Place
  stop : Text.Place
  deriving DecidableEq, Repr

def Span.ofLength (place : Text.Place) (length : Nat) : Span :=
  ⟨place, { place with column := place.column + length }⟩

structure Diagnostic where
  span : Span
  message : String
  deriving DecidableEq, Repr

/-- The diagnostics of a document: its syntax error, if there is one. -/
def diagnostics (outline : Outline) : List Diagnostic :=
  outline.error.toList.map fun error => ⟨Span.ofLength error.place 1, error.fault.message⟩

inductive CompletionKind where
  | function
  | variable
  | keyword
  deriving DecidableEq, Repr

structure Completion where
  label : String
  kind : CompletionKind
  detail : Text
  deriving DecidableEq, Repr

structure DocumentSymbol where
  name : String
  detail : Text
  isFunction : Bool
  span : Span
  deriving DecidableEq, Repr

def documentSymbols (outline : Outline) : List DocumentSymbol :=
  outline.definitions.map fun definition =>
    ⟨definition.name, definition.detail, definition.isFunction,
      Span.ofLength definition.place definition.name.length⟩

/-- The words that can be suggested: the operators, the special forms and the defined names. -/
def completions (outline : Option Outline) : List Completion :=
  operatorHelp.map (fun entry => ⟨entry.1, .function, entry.2.toList⟩) ++
    formHelp.map (fun entry => ⟨entry.1, .keyword, entry.2.toList⟩) ++
    (outline.elim [] Outline.definitions).map fun definition =>
      ⟨definition.name, if definition.isFunction then .function else .variable, definition.detail⟩

/-- The explanation of a word. The operators and special forms come before definitions. -/
def explanation? (outline : Outline) (word : Text) : Option Text :=
  let word := String.ofList word
  match (operatorHelp ++ formHelp).find? fun entry => entry.1 = word with
  | some (_, help) => some help.toList
  | none =>
    (outline.find? word).map fun definition =>
      definition.detail ++ '\n' :: (if definition.isFunction then "function" else "var").toList ++
        " defined at ".toList ++ Nat.toDigits 10 (definition.place.line + 1) ++
        ':' :: Nat.toDigits 10 (definition.place.column + 1)

structure Document where
  text : Text
  outline : Outline

def Document.ofText (text : Text) : Document := ⟨text, Outline.ofSource text⟩

/-- A change to what is open in the editor. The texts of a change are full texts of the document,
of which the last one counts. -/
inductive Event where
  | opened (uri : String) (text : Text)
  | changed (uri : String) (texts : List Text)
  | closed (uri : String)

def Event.uri : Event → String
  | .opened uri _ => uri
  | .changed uri _ => uri
  | .closed uri => uri

end Editor

/-- The open documents in the order in which they were opened. -/
structure Editor where
  documents : List (String × Editor.Document) := []

namespace Editor

def document? (editor : Editor) (uri : String) : Option Document :=
  (editor.documents.find? fun entry => entry.1 = uri).map Prod.snd

/-- The documents with the one of the name put in; a document that is open keeps its place. -/
def putIn (uri : String) (document : Document) : List (String × Document) → List (String × Document)
  | [] => [(uri, document)]
  | (other, old) :: rest =>
    if other = uri then (other, document) :: rest else (other, old) :: putIn uri document rest

/-- Sets the text of a document: the editor after it and the diagnostics to show. -/
def setText (editor : Editor) (uri : String) (text : Text) : Editor × List Diagnostic :=
  let document := Document.ofText text
  ({ editor with documents := putIn uri document editor.documents }, diagnostics document.outline)

/-- Takes in an event: the editor after it, and the diagnostics to show for the document. A change
without a text leaves the text of the document, which is empty if it is not open. -/
def handle (editor : Editor) : Event → Editor × List Diagnostic
  | .opened uri text => editor.setText uri text
  | .changed uri texts =>
    let present := (editor.document? uri).elim [] Document.text
    editor.setText uri (texts.getLast?.getD present)
  | .closed uri =>
    ({ editor with documents := editor.documents.filter fun entry => entry.1 ≠ uri }, [])

def hover? (editor : Editor) (uri : String) (line character : Nat) : Option Text := do
  let document ← editor.document? uri
  let word ← wordAt? document.text line character
  explanation? document.outline word

def complete (editor : Editor) (uri : String) : List Completion :=
  completions ((editor.document? uri).map Document.outline)

def symbols? (editor : Editor) (uri : String) : Option (List DocumentSymbol) :=
  (editor.document? uri).map fun document => documentSymbols document.outline

/-! ## Messages -/

/-- A question about a document. -/
inductive Query where
  | hover (uri : String) (line character : Nat)
  | completion (uri : String)
  | symbols (uri : String)

def Query.uri : Query → String
  | .hover uri _ _ => uri
  | .completion uri => uri
  | .symbols uri => uri

/-- The answer to a query of the same name. -/
inductive Answer where
  | hover (explanation : Option Text)
  | completion (items : List Completion)
  | symbols (symbols : Option (List DocumentSymbol))
  deriving DecidableEq, Repr

def answer (editor : Editor) : Query → Answer
  | .hover uri line character => .hover (editor.hover? uri line character)
  | .completion uri => .completion (editor.complete uri)
  | .symbols uri => .symbols (editor.symbols? uri)

inductive Message where
  | event (event : Event)
  | query (query : Query)

/-- What a message leads to: the diagnostics of a document are published, or a query is answered. -/
inductive Reply where
  | published (uri : String) (diagnostics : List Diagnostic)
  | answered (answer : Answer)
  deriving DecidableEq, Repr

def respond (editor : Editor) : Message → Editor × Reply
  | .event event =>
    let (editor, diagnostics) := editor.handle event
    (editor, .published event.uri diagnostics)
  | .query query => (editor, .answered (editor.answer query))

/-- Responds to one message after another: the editor after them, and the replies in their order. -/
def exchange (editor : Editor) : List Message → Editor × List Reply
  | [] => (editor, [])
  | message :: messages =>
    let (editor, reply) := editor.respond message
    let (editor, replies) := editor.exchange messages
    (editor, reply :: replies)

end Editor

end LazyLisp
