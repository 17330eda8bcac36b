import PropSchema.Yaml.Token
/-!
The nodes of a YAML document: scalars, sequences and mappings, each with its tag. An alias stands
for the node that its anchor names; inside that very node it stands for a loop.
-/
namespace PropSchema.Yaml

/-- A tag that the language itself defines, by its name, or any other tag. -/
inductive Tag where
  | core (name : String)
  | other (text : String)
  deriving DecidableEq, Inhabited

def coreLeading : String := "tag:yaml.org,2002:"

def Tag.ofText (text : String) : Tag :=
  if coreLeading.toList.isPrefixOf text.toList then
    .core (String.ofList (text.toList.drop coreLeading.length))
  else .other text

inductive Node where
  | scalar (tag : Tag) (text : String)
  | sequence (tag : Tag) (items : List Node)
  | mapping (tag : Tag) (entries : List (Node × Node))
  /-- A sequence or mapping within itself. -/
  | loop (isMapping : Bool)
  deriving Inhabited

/-- A number without its sign. -/
def unsigned (cs : List Char) : List Char :=
  match cs with
  | '+' :: rest => rest
  | '-' :: rest => rest
  | cs => cs

def isDecimal (c : Char) : Bool := '0' ≤ c && c ≤ '9'

/-- Digits with underscores, a digit first. -/
def isNumber (cs : List Char) : Bool :=
  cs.head?.any isDecimal && cs.all fun c => isDecimal c || c == '_'

/-- The part before the first separator, and the part behind it if there is one. -/
def cut (separator : Char) (cs : List Char) : List Char × Option (List Char) :=
  let before := cs.takeWhile (· != separator)
  match cs.drop before.length with
  | _ :: after => (before, some after)
  | [] => (before, none)

/-- Sixtieths: one or more groups of one digit or two below sixty. -/
def isSixtieth (cs : List Char) : Bool :=
  match cs with
  | [a] => isDecimal a
  | [a, b] => '0' ≤ a && a ≤ '5' && isDecimal b
  | _ => false

/-- The pieces between colons. -/
def colonPieces : List Char → List (List Char)
  | [] => [[]]
  | c :: rest =>
    match colonPieces rest with
    | [] => [[c]]
    | piece :: pieces => if c == ':' then [] :: piece :: pieces else (c :: piece) :: pieces

def isSexagesimal (first : List Char → Bool) (cs : List Char) : Bool :=
  match colonPieces cs with
  | whole :: part :: parts => first whole && (part :: parts).all isSixtieth
  | _ => false

def isExponent (cs : List Char) : Bool :=
  match cs with
  | mark :: sign :: digits =>
    (mark == 'e' || mark == 'E') && (sign == '+' || sign == '-') && !digits.isEmpty &&
      digits.all isDecimal
  | _ => false

/-- What may follow the point of a fraction. -/
def isFraction (cs : List Char) : Bool :=
  let rest := cs.dropWhile fun c => isDecimal c || c == '_'
  rest.isEmpty || isExponent rest

def isFloatText (text : List Char) : Bool :=
  let cs := unsigned text
  let word := String.ofList cs
  word == ".inf" || word == ".Inf" || word == ".INF" ||
    (cs.length == text.length && (word == ".nan" || word == ".NaN" || word == ".NAN")) ||
    match cut '.' cs with
    | (whole, some fraction) =>
      if whole.isEmpty then
        cs.length == text.length && fraction.head?.any isDecimal && isFraction fraction
      else
        (isNumber whole && isFraction fraction) ||
          (isSexagesimal isNumber whole && fraction.all fun c => isDecimal c || c == '_')
    | _ => false

def isIntText (text : List Char) : Bool :=
  let digits (p : Char → Bool) (cs : List Char) : Bool :=
    !cs.isEmpty && cs.all fun c => p c || c == '_'
  let positive (cs : List Char) : Bool := isNumber cs && cs.head? != some '0'
  match unsigned text with
  | ['0'] => true
  | '0' :: 'b' :: rest => digits (fun c => c == '0' || c == '1') rest
  | '0' :: 'x' :: rest => digits isHexDigit rest
  | '0' :: rest => digits (fun c => '0' ≤ c && c ≤ '7') rest
  | cs => positive cs || isSexagesimal positive cs

/-- The words for truth values. -/
def truthOf? (text : String) : Option Bool :=
  let lowered := String.ofList (text.toList.map Char.toLower)
  if ["yes", "true", "on"].contains lowered then some true
  else if ["no", "false", "off"].contains lowered then some false
  else none

/-- Words are written in small letters, in capitals, or with one capital in front. -/
def isTruthText (text : String) : Bool :=
  let cs := text.toList
  let plainCase := cs.all Char.isLower || cs.all Char.isUpper ||
    (cs.head?.any Char.isUpper && cs.tail.all Char.isLower)
  plainCase && (truthOf? text).isSome

/-- So many digits at the front, and what follows them. -/
def takeDigits? (least most : Nat) (cs : List Char) : Option (Nat × List Char) :=
  let run := (cs.take most).takeWhile isDecimal
  if run.length < least then none
  else some (run.foldl (fun n c => n * 10 + (c.toNat - 48)) 0, cs.drop run.length)

def takeChar? (c : Char) (cs : List Char) : Option (List Char) :=
  match cs with
  | d :: rest => if c == d then some rest else none
  | [] => none

/-- A point in time: a day, perhaps with a time of the day and an offset in minutes. -/
structure Moment where
  year : Nat
  month : Nat
  day : Nat
  clock : Option (Nat × Nat × Nat × Nat)
  offset : Option Int
  deriving DecidableEq, Inhabited

/-- The offset at the end of a time. -/
def offset? (cs : List Char) : Option (Option Int) :=
  match cs.dropWhile fun c => c == ' ' || c == '\t' with
  | [] => if cs.isEmpty then some none else none
  | ['Z'] => some (some 0)
  | sign :: rest =>
    if sign == '+' || sign == '-' then do
      let (hours, rest) ← takeDigits? 1 2 rest
      let minutes ← match rest with
        | [] => some 0
        | ':' :: rest => match takeDigits? 2 2 rest with
          | some (m, []) => some m
          | _ => none
        | _ => none
      let total : Int := (hours * 60 + minutes : Nat)
      pure (some (if sign == '-' then -total else total))
    else none

/-- The time of the day after a date, with a fraction in millionths of a second. -/
def clock? (cs : List Char) : Option ((Nat × Nat × Nat × Nat) × Option Int) := do
  let start ← match cs with
    | 'T' :: rest => some rest
    | 't' :: rest => some rest
    | ' ' :: _ => some (cs.dropWhile fun c => c == ' ' || c == '\t')
    | '\t' :: _ => some (cs.dropWhile fun c => c == ' ' || c == '\t')
    | _ => none
  let (hour, rest) ← takeDigits? 1 2 start
  let (minute, rest) ← takeDigits? 2 2 (← takeChar? ':' rest)
  let (second, rest) ← takeDigits? 2 2 (← takeChar? ':' rest)
  let (fraction, rest) := match rest with
    | '.' :: rest => let run := rest.takeWhile isDecimal; (run, rest.drop run.length)
    | rest => ([], rest)
  let millionths := ((fraction ++ List.replicate 6 '0').take 6).foldl
    (fun n c => n * 10 + (c.toNat - 48)) 0
  pure ((hour, minute, second, millionths), ← offset? rest)

/-- The moment that a text stands for. -/
def moment? (text : String) : Option Moment := do
  let (year, rest) ← takeDigits? 4 4 text.toList
  let (month, rest) ← takeDigits? 1 2 (← takeChar? '-' rest)
  let (day, rest) ← takeDigits? 1 2 (← takeChar? '-' rest)
  if rest.isEmpty then pure ⟨year, month, day, none, none⟩
  else
    let (clock, offset) ← clock? rest
    pure ⟨year, month, day, some clock, offset⟩

/-- A day alone is told by its ten characters. -/
def isMomentText (text : String) : Bool :=
  (moment? text).any fun m => m.clock.isSome || text.length == 10

/-- The tag of a plain scalar without one, by its text. -/
def tagOfText (text : String) : Tag :=
  let cs := text.toList
  if isTruthText text then .core "bool"
  else if isFloatText cs then .core "float"
  else if isIntText cs then .core "int"
  else if text == "<<" then .core "merge"
  else if ["", "~", "null", "Null", "NULL"].contains text then .core "null"
  else if isMomentText text then .core "timestamp"
  else if text == "=" then .core "value"
  else .core "str"

/-- The state of reading nodes: the tokens left, the anchors met, and the tag handles. -/
structure Composer where
  tokens : List Token
  anchors : List (String × Node)
  handles : List (String × String)

/-- A step of reading nodes, which is refused where the tokens make no document. -/
abbrev Compose := StateT Composer Option

namespace Compose

def peek : Compose (Option Token) := do pure (← get).tokens.head?

/-- Whether one of some tokens is next, or the end of the text if `atEnd` is set. -/
def isNext (tokens : List Token) : Compose Bool := do
  match ← peek with
  | some t => pure (tokens.contains t)
  | none => pure false

def skip : Compose Unit := modify fun s => { s with tokens := s.tokens.tail }

/-- Past a token if it is next. -/
def skipIf (t : Token) : Compose Bool := do
  if ← isNext [t] then
    skip
    pure true
  else pure false

def need (t : Token) : Compose Unit := do
  if ← skipIf t then pure () else failure

end Compose

open Compose

/-- The tag of a node as its token gives it. -/
def tagOfToken (handle : Option String) (suffix : String) : Compose String := do
  match handle with
  | none => pure suffix
  | some handle => match (← get).handles.lookup handle with
  | some leading => pure (leading ++ suffix)
  | none => failure

/-- An anchor and a tag, in either order. -/
def properties : Compose (Option String × Option String) := do
  match ← peek with
  | some (.anchor name) =>
    skip
    match ← peek with
    | some (.tag handle suffix) =>
      skip
      pure (some name, some (← tagOfToken handle suffix))
    | _ => pure (some name, none)
  | some (.tag handle suffix) =>
    skip
    match ← peek with
    | some (.anchor name) =>
      skip
      pure (some name, some (← tagOfToken handle suffix))
    | _ => pure (none, some (← tagOfToken handle suffix))
  | _ => pure (none, none)

/-- An empty scalar. -/
def emptyNode : Node := .scalar (.core "null") ""

def keep (anchor : Option String) (node : Node) : Compose Unit :=
  match anchor with
  | none => pure ()
  | some name => modify fun s => { s with anchors := (name, node) :: s.anchors }

/-- The tag of a collection, which a lone exclamation mark leaves as it is. -/
def collectionTag (tag : Option String) (name : String) : Tag :=
  match tag.filter (· != "!") with
  | none => .core name
  | some text => .ofText text

/-- The tag of a scalar; a lone exclamation mark has it read by its text, quoted or not. -/
def scalarTag (tag : Option String) (text : String) (isPlain : Bool) : Tag :=
  match tag with
  | none => if isPlain then tagOfText text else .core "str"
  | some "!" => tagOfText text
  | some text => .ofText text

/-- The way to read a node: whether block collections may open, also without indentation. -/
structure Position where
  inBlock : Bool
  indentless : Bool

/-- The readers of what nodes hold, given the reader of nodes. -/
abbrev NodeReader := Position → Compose Node

def blockPosition : Position := ⟨true, false⟩
def valuePosition : Position := ⟨true, true⟩
def flowPosition : Position := ⟨false, false⟩

/-- A node, or an empty one if a token that ends it is next. -/
def nodeUnless (node : NodeReader) (position : Position) (ends : List Token) : Compose Node := do
  if (← isNext ends) || (← peek).isNone then pure emptyNode else node position

/-- The entries of a block sequence up to its end. -/
def blockItems (node : NodeReader) : Nat → Compose (List Node)
  | 0 => failure
  | fuel + 1 => do
    if ← skipIf .entry then
      let item ← nodeUnless node blockPosition [.entry, .blockEnd]
      pure (item :: (← blockItems node fuel))
    else
      need .blockEnd
      pure []

/-- The entries of a sequence that is not indented under its key. -/
def indentlessItems (node : NodeReader) : Nat → Compose (List Node)
  | 0 => failure
  | fuel + 1 => do
    if ← skipIf .entry then
      let item ← nodeUnless node blockPosition [.entry, .key, .value, .blockEnd]
      pure (item :: (← indentlessItems node fuel))
    else pure []

def blockEntries (node : NodeReader) : Nat → Compose (List (Node × Node))
  | 0 => failure
  | fuel + 1 => do
    if ← skipIf .blockEnd then pure []
    else
      let ends : List Token := [.key, .value, .blockEnd]
      let key ←
        if ← skipIf .key then nodeUnless node valuePosition ends
        else if ← isNext [.value] then pure emptyNode
        else failure
      let value ←
        if ← skipIf .value then nodeUnless node valuePosition ends else pure emptyNode
      pure ((key, value) :: (← blockEntries node fuel))

/-- A value in a flow collection, if a colon announces it. -/
def flowValue (node : NodeReader) (ends : List Token) : Compose Node := do
  if ← skipIf .value then nodeUnless node flowPosition ends else pure emptyNode

def flowItems (node : NodeReader) : Nat → Bool → Compose (List Node)
  | 0, _ => failure
  | fuel + 1, first => do
    if ← skipIf .closeSequence then pure []
    else
      if !first then need .comma
      if ← skipIf .closeSequence then pure []
      else
        let item ←
          if ← skipIf .key then
            let key ← nodeUnless node flowPosition [.value, .comma, .closeSequence]
            let value ← flowValue node [.comma, .closeSequence]
            pure (.mapping (.core "map") [(key, value)])
          else node flowPosition
        pure (item :: (← flowItems node fuel false))

def flowEntries (node : NodeReader) : Nat → Bool → Compose (List (Node × Node))
  | 0, _ => failure
  | fuel + 1, first => do
    if ← skipIf .closeMapping then pure []
    else
      if !first then need .comma
      if ← skipIf .closeMapping then pure []
      else
        let entry ←
          if ← skipIf .key then
            let key ← nodeUnless node flowPosition [.value, .comma, .closeMapping]
            pure (key, ← flowValue node [.comma, .closeMapping])
          else pure (← node flowPosition, emptyNode)
        pure (entry :: (← flowEntries node fuel false))

/-- A collection, known under its anchor as a loop until it is read. -/
def collection (anchor : Option String) (isMapping : Bool) (read : Compose Node) : Compose Node := do
  keep anchor (.loop isMapping)
  let node ← read
  keep anchor node
  pure node

/-- A node, given the reader of the nodes within it. -/
def nodeOf (node : NodeReader) (position : Position) : Compose Node := do
  match ← peek with
  | some (.reference name) =>
    skip
    match (← get).anchors.lookup name with
    | some found => pure found
    | none => failure
  | _ =>
    let (anchor, tag) ← properties
    let known := (← get).anchors
    if anchor.any fun name => (known.lookup name).isSome then failure
    let fuel := (← get).tokens.length + 1
    let sequence (items : Compose (List Node)) : Compose Node :=
      collection anchor false do pure (.sequence (collectionTag tag "seq") (← items))
    let mapping (entries : Compose (List (Node × Node))) : Compose Node :=
      collection anchor true do pure (.mapping (collectionTag tag "map") (← entries))
    match ← peek with
    | some .entry =>
      if position.indentless then sequence (indentlessItems node fuel)
      else if anchor.isSome || tag.isSome then
        let found : Node := .scalar (scalarTag tag "" true) ""
        keep anchor found
        pure found
      else failure
    | some (.scalar text isPlain) =>
      skip
      let found : Node := .scalar (scalarTag tag text isPlain) text
      keep anchor found
      pure found
    | some .openSequence =>
      skip
      sequence (flowItems node fuel true)
    | some .openMapping =>
      skip
      mapping (flowEntries node fuel true)
    | t =>
      if position.inBlock && t == some .blockSequence then
        skip
        sequence (blockItems node fuel)
      else if position.inBlock && t == some .blockMapping then
        skip
        mapping (blockEntries node fuel)
      else if anchor.isSome || tag.isSome then
        let found : Node := .scalar (scalarTag tag "" true) ""
        keep anchor found
        pure found
      else failure

/-- A node that nests no deeper than the fuel reaches. -/
def nodeTo : Nat → NodeReader
  | 0, _ => failure
  | depth + 1, position => nodeOf (fun p => nodeTo depth p) position

/-- Directives before a document: one version at most, and each tag handle once. -/
def directives : Nat → Bool → List (String × String) → Compose (List (String × String))
  | 0, _, _ => failure
  | fuel + 1, versioned, handles => do
    match ← peek with
    | some (.version major) =>
      if versioned || major != 1 then failure
      skip
      directives fuel true handles
    | some (.tagHandle handle leading) =>
      if (handles.lookup handle).isSome then failure
      skip
      directives fuel versioned ((handle, leading) :: handles)
    | some .otherDirective =>
      skip
      directives fuel versioned handles
    | _ => pure handles

/-- Past the marks of document ends. -/
def skipDocumentEnds : Nat → Compose Unit
  | 0 => pure ()
  | fuel + 1 => do if ← skipIf .documentEnd then skipDocumentEnds fuel

def isDirective : Option Token → Bool
  | some (.version _) => true
  | some (.tagHandle _ _) => true
  | some .otherDirective => true
  | _ => false

/-- The only document of a text, none for a text without one. -/
def document (fuel : Nat) : Compose (Option Node) := do
  let builtin := [("!", "!"), ("!!", coreLeading)]
  let first ← peek
  if first.isNone then return none
  let implicit := !(isDirective first || first == some .documentStart)
  if implicit then modify fun s => { s with handles := builtin }
  else
    skipDocumentEnds fuel
    let handles ← directives fuel false []
    need .documentStart
    modify fun s => { s with handles := handles ++ builtin }
  let ended ← do
    let t ← peek
    pure (t.isNone || isDirective t || t == some .documentStart || t == some .documentEnd)
  let node ← if ended && !implicit then pure emptyNode else nodeTo fuel blockPosition
  skipDocumentEnds fuel
  if (← peek).isSome then failure
  pure (some node)

/-- The document of a text, refused if the text is no document or several. -/
def document? (text : List Char) : Option (Option Node) := do
  let tokens ← tokens? text
  let (node, _) ← (document (tokens.length + 2)).run ⟨tokens, [], []⟩
  pure node

end PropSchema.Yaml
