import Nwscript.Settings.Token

/-! # Documents of settings

A settings file is one mapping from names to scalars or lists of scalars, in block form (a name and a
colon on each line, list items behind dashes) or in flow form (brackets and braces). Every other
shape is refused as a whole, so reading has one kind of failure.

* `flowItems`, `flowEntries`: the forms in brackets.
* `dashItems`, `blockEntries`: the forms by indentation.
* `readDocument`: the whole file. -/

namespace Nwscript.Settings

inductive DocValue where
  | scalar (s : Scalar)
  | list (items : List Scalar)
  deriving DecidableEq, Repr

def DocValue.missing : DocValue := .scalar .missing

abbrev DocEntry := String × DocValue

/-! ## Brackets -/

/-- The items of a list in brackets, behind the opening one. -/
def flowItems : List Token → Option (List Scalar × List Token)
  | .closeList :: rest => some ([], rest)
  | .scalar s :: .closeList :: rest => some ([s], rest)
  | .scalar s :: .comma :: rest => (flowItems rest).map fun (items, rest) => (s :: items, rest)
  | _ => none

def flowValue : List Token → Option (DocValue × List Token)
  | .scalar s :: rest => some (.scalar s, rest)
  | .openList :: rest => (flowItems rest).map fun (items, rest) => (.list items, rest)
  | rest => some (.missing, rest)

/-- A name inside braces, with or without a value. -/
def flowEntry : List Token → Option (DocEntry × List Token)
  | .key :: .scalar k :: .value :: rest =>
    (flowValue rest).map fun (value, rest) => ((k.text, value), rest)
  | .key :: .scalar k :: rest => some ((k.text, .missing), rest)
  | .scalar k :: rest => some ((k.text, .missing), rest)
  | _ => none

/-- The entries of a mapping in braces, behind the opening one. -/
def flowEntries : Nat → List Token → Option (List DocEntry × List Token)
  | 0, _ => none
  | steps + 1, tokens => do
    if let .closeMap :: rest := tokens then return ([], rest)
    let (entry, rest) ← flowEntry tokens
    match rest with
    | .closeMap :: rest => return ([entry], rest)
    | .comma :: rest =>
      let (entries, rest) ← flowEntries steps rest
      return (entry :: entries, rest)
    | _ => none

/-! ## Indentation -/

/-- The items behind dashes, up to the first token that starts none. -/
def dashItems : List Token → List Scalar × List Token
  | .dash :: .scalar s :: rest => let (items, rest) := dashItems rest; (s :: items, rest)
  | .dash :: rest => let (items, rest) := dashItems rest; (.missing :: items, rest)
  | rest => ([], rest)

/-- The value of an indented name. A list needs no deeper indentation than the name. -/
def blockValue : List Token → Option (DocValue × List Token)
  | .scalar s :: rest => some (.scalar s, rest)
  | .openList :: rest => (flowItems rest).map fun (items, rest) => (.list items, rest)
  | .listStart :: rest =>
    match dashItems rest with
    | (items, .blockEnd :: rest) => some (.list items, rest)
    | _ => none
  | .dash :: rest => let (items, rest) := dashItems (.dash :: rest); some (.list items, rest)
  | rest => some (.missing, rest)

/-- The entries of an indented mapping, behind its start. -/
def blockEntries : Nat → List Token → Option (List DocEntry × List Token)
  | 0, _ => none
  | _, .blockEnd :: rest => some ([], rest)
  | steps + 1, .key :: .scalar k :: .value :: rest => do
    let (value, rest) ← blockValue rest
    let (entries, rest) ← blockEntries steps rest
    return ((k.text, value) :: entries, rest)
  | steps + 1, .key :: .scalar k :: rest => do
    let (entries, rest) ← blockEntries steps rest
    return ((k.text, .missing) :: entries, rest)
  | _, _ => none

/-! ## Documents -/

def readMapping : List Token → Option (List DocEntry × List Token)
  | .mapStart :: rest => blockEntries (rest.length + 1) rest
  | .openMap :: rest => flowEntries (rest.length + 1) rest
  | _ => none

/-- The entries of a document behind the mark of its start: none, or those of a mapping. -/
def readContent : List Token → Option (List DocEntry × List Token)
  | [] => some ([], [])
  | .documentEnd :: rest => some ([], rest)
  | tokens => readMapping tokens

def readTokens : List Token → Option (List DocEntry)
  | [] => some []
  | tokens => do
    let (entries, rest) ← match tokens with
      | .documentStart :: rest => readContent rest
      | _ => readMapping tokens
    if rest.all (· == .documentEnd) then return entries else none

def readDocument (text : List Char) : Option (List DocEntry) := scanTokens text >>= readTokens

end Nwscript.Settings
