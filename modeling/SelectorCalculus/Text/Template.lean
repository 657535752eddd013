import SelectorCalculus.Text.Quoted
/-! Templates: texts with places where arguments are filled in. Mismatches are shown in the
result. -/

namespace SelectorCalculus.Text

inductive Argument where
  | text (s : String)
  | number (n : Int)

namespace Argument

def described : Argument → String
  | text s => "string=" ++ s
  | number n => "int=" ++ toString n

end Argument

def singleQuote : Char := Char.ofNat 39

/-- A character between single quotes, which need no escape for a double quote but one for a
single quote. -/
def quotedChar (c : Char) : String :=
  let body := if c = '"' then [c] else if c = singleQuote then ['\\', c] else quoteChar c
  String.ofList (singleQuote :: body ++ [singleQuote])

def charOfCode (n : Int) : Char :=
  if 0 ≤ n ∧ n.toNat.isValidChar then Char.ofNat n.toNat else '\uFFFD'

/-- An argument at a place of the given sort: `s` for text, `d` for numbers, `q` for a quoted text
or character. -/
def fillPlace (place : Char) : Argument → String
  | .text s =>
    if place = 's' then s
    else if place = 'q' then quoted s
    else "%!" ++ place.toString ++ "(" ++ (Argument.text s).described ++ ")"
  | .number n =>
    if place = 'd' then toString n
    else if place = 'q' then quotedChar (charOfCode n)
    else "%!" ++ place.toString ++ "(" ++ (Argument.number n).described ++ ")"

/-- Fills the arguments into a template, in order. A doubled percent sign is a percent sign. -/
def fillChars : List Char → List Argument → String
  | '%' :: '%' :: rest, args => "%" ++ fillChars rest args
  | '%' :: place :: rest, a :: args => fillPlace place a ++ fillChars rest args
  | '%' :: place :: rest, [] => "%!" ++ place.toString ++ "(MISSING)" ++ fillChars rest []
  | ['%'], args => "%!(NOVERB)" ++ fillChars [] args
  | c :: rest, args => c.toString ++ fillChars rest args
  | [], [] => ""
  | [], args => "%!(EXTRA " ++ ", ".intercalate (args.map Argument.described) ++ ")"

def fill (template : String) (args : List Argument) : String := fillChars template.toList args

end SelectorCalculus.Text
