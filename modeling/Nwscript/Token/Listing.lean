import Nwscript.Token.Lexer

/-! # Listing of tokens

One line for each token of a text: line and column, text and kind. -/

namespace Nwscript

def shownText (text : String) : String :=
  if text = "\n" then "\\n" else if text = "\t" then "\\t" else text

def listingLine : Except LexError Token → String
  | .ok t =>
    Text.padLeft 4 ' ' (toString t.pos.line) ++ ":" ++ Text.padRight 3 (toString t.pos.column) ++
      " " ++ Text.padRight 10 (shownText t.text) ++ " " ++ t.kind.name ++ "\n"
  | .error e => e.pos.text ++ " " ++ e.fault.message ++ "\n"

def tokenListing (source : String) : String :=
  "Source Byte Count: " ++ toString source.utf8ByteSize ++ "\n" ++
    String.join ((lex source 0).map listingLine)

end Nwscript
