import Backtrack.Evaluation
import Backtrack.Parser.Term
import Backtrack.Xml.Node

/-!
# The XML grammar

A document is one element, perhaps behind a declaration, with spaces and comments around both. Once
a tag is open, whatever is missing is an error that says what was expected.
-/

namespace Backtrack.Xml

inductive Rule where
  | element
  deriving DecidableEq, Repr

abbrev Rule.type : Rule → Type
  | .element => Element

abbrev Grammar := Term Rule.type

structure OpenTag where
  name : Bytes
  attributes : List (Bytes × Bytes)
  selfClosing : Bool

def comment : Grammar (List Char) :=
  (((Term.literal "-->").not.skipLeft Term.anyChar).many0).surround (.literal "<!--")
    ((Term.literal "-->").expected "unterminated comment")

def comments : Grammar (List (List Char)) := comment.many0

def ignored : Grammar (List Unit) := ((Term.space.value ()).or (comment.value ())).many0

/-- A name: a letter or low line, and then letters, digits, hyphens, low lines and colons. -/
def namePattern : Regex :=
  .anchored (.seq
    (.chars (.ranges [(97, 122), (65, 90), (95, 95)]))
    (.star true (.chars (.ranges [(97, 122), (65, 90), (45, 45), (95, 95), (58, 58), (48, 57)]))))

def quotedPattern : Regex :=
  let between (quote : Char) : Regex :=
    .seqs [.chars (.single quote), .star true (.chars (.complement (.single quote))),
      .chars (.single quote)]
  .anchored (.alt (between '\x27') (between '\x22'))

def declarationPattern : Regex :=
  .anchored
    (.seqs [.ofString "<?xml", .star true (.chars (.complement (.single '?'))), .ofString "?>"])

def name : Grammar Bytes := .pattern namePattern

def quotedText : Grammar Bytes := (Term.pattern quotedPattern).map fun t => (t.drop 1).dropLast

def attributeTerm : Grammar (Bytes × Bytes) :=
  name.trim.and <|
    ((Term.char '=').expected "expected \"=\"").skipLeft
      (quotedText.trim.expected "expected quoted attribute value")

def duplicate? : List Bytes → (seen : List Bytes) → Option Bytes
  | [], _ => none
  | name :: names, seen => if seen.contains name then some name else duplicate? names (name :: seen)

def checkAttributes (attributes : List (Bytes × Bytes)) : Except Error (List (Bytes × Bytes)) :=
  match duplicate? (attributes.map Prod.fst) [] with
  | some name => .error (.plain ("duplicate attribute " ++ Text.quoted name))
  | none => .ok attributes

/-- The end of an opening tag; the value says whether the element ends there too. -/
def tagEnd : Grammar Bool :=
  Term.spaces.skipLeft <| Term.expected "expected \">\" or \"/>\"" <|
    Term.choice [(Term.literal "/>").value true, (Term.char '>').value false]

def openTag : Grammar OpenTag :=
  let attributes := attributeTerm.many0.mapErr checkAttributes
  (((Term.char '<').skipLeft (name.and attributes)).and tagEnd).map
    fun ((name, attributes), selfClosing) => ⟨name, attributes, selfClosing⟩

/-- Characters without the white space at both ends. -/
def trimBlanks (cs : List Char) : List Char :=
  let isBlank (c : Char) : Bool := Text.isBlank c.toNat
  ((cs.dropWhile isBlank).reverse.dropWhile isBlank).reverse

def text : Grammar Node :=
  (((Term.charNotIn "<").surround comments comments).many1).map fun cs =>
    .text (Utf8.ofChars (trimBlanks cs))

def children : Grammar (List Node) :=
  let node := Term.choice [(Term.ref Rule.element).map Element.toNode, text]
  ((ignored.skipLeft node).many0).skipRight ignored

def closeTag (name : Bytes) : Grammar Bytes :=
  Term.commit
    (fun input offset => do
      let near ← input.near offset
      let message : Bytes := "expected </" ++ name ++ "> but got " ++ near
      return some { message := message : ParseError })
    ((Term.literal name).surround (.literal "</") (Term.spaces.skipLeft (.char '>')))

def content (tag : OpenTag) : Grammar (List Node) :=
  if tag.selfClosing then .always [] else children.skipRight (closeTag tag.name)

def element : Grammar Element :=
  .named "element" <| (openTag.flatMap content).map fun (tag, children) =>
    ⟨tag.name, tag.attributes, children⟩

def definitions : Definitions Rule.type
  | .element => some element

def document : Grammar Element :=
  (ignored.and ((Term.pattern declarationPattern).optional [])).skipLeft
    ((ignored.skipLeft element).skipRight ignored)

def parser : Parser Element := definitions.parser 1 document

def parse (text : Bytes) (requests : List Setting) : Evaluation Element :=
  parser.evaluate text requests

end Backtrack.Xml
