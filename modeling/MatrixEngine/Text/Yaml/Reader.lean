/-
Reading YAML documents.

The reader takes block and flow collections, plain and quoted scalars over several lines, comments, and one document
with its markers. Anchors, tags, directives, block scalars and explicit keys are refused. Block structure follows the
columns of tokens: a mapping or sequence goes on as long as its entries begin at its column. A key is a scalar with
its colon on the same line.

The recursion is bounded by the length of the text: every step that calls itself has read a character, or hands over
to a step that reads one.
-/
import MatrixEngine.Text.Yaml

namespace MatrixEngine.Yaml

/-- what is still to be read, and where it begins -/
structure Cursor where
  rest : List Char
  line : Nat := 0
  column : Nat := 0

/-- a step of the reader; it fails on what is no YAML -/
abbrev Step (β : Type) := Cursor → Option (β × Cursor)

/-! ## Characters and gaps -/

def isSpace (c : Char) : Bool := c = ' ' || c = '\t'

def isBreak (c : Char) : Bool := c = '\n'

def isGap (c : Char) : Bool := isSpace c || isBreak c

/-- the text ends here, or a gap follows -/
def atGap : List Char → Bool
  | [] => true
  | c :: _ => isGap c

def isPrintable (c : Char) : Bool :=
  let n := c.toNat
  n = 9 || n = 10 || n = 13 || (32 ≤ n && n ≤ 126) || n = 0x85 || (0xA0 ≤ n && n ≤ 0xFFFD && n ≠ 0xFEFF)
    || 0x10000 ≤ n

/-- line ends of all kinds as line feeds -/
def unifyBreaks : List Char → List Char
  | [] => []
  | '\r' :: '\n' :: rest => '\n' :: unifyBreaks rest
  | c :: rest => (if c = '\r' || c = '\x85' then '\n' else c) :: unifyBreaks rest

def Cursor.advance (cur : Cursor) (c : Char) (rest : List Char) : Cursor :=
  if isBreak c then ⟨rest, cur.line + 1, 0⟩ else ⟨rest, cur.line, cur.column + 1⟩

def Cursor.over (cur : Cursor) : List Char → Cursor
  | [] => cur
  | c :: cs => Cursor.over (cur.advance c (cur.rest.drop 1)) cs

/-- step over blanks, comments and line ends; tabs count as blanks inside of flow collections and behind a token -/
def skipGap (flow tabs comment : Bool) : List Char → Nat → Nat → Cursor
  | [], line, column => ⟨[], line, column⟩
  | c :: rest, line, column =>
    if c = '\n' then skipGap flow flow false rest (line + 1) 0
    else if comment then skipGap flow tabs true rest line (column + 1)
    else if c = '#' then skipGap flow tabs true rest line (column + 1)
    else if c = ' ' || (c = '\t' && tabs) then skipGap flow tabs false rest line (column + 1)
    else ⟨c :: rest, line, column⟩

/-- to the next token inside of a flow collection -/
def Cursor.toFlowToken (cur : Cursor) : Cursor := skipGap true true false cur.rest cur.line cur.column

/-- to the next token of a block, behind a token on the same line -/
def Cursor.toToken (cur : Cursor) : Cursor := skipGap false true false cur.rest cur.line cur.column

/-- to the next token of a block where the line has only its indentation and dashes so far -/
def Cursor.toIndented (cur : Cursor) : Cursor := skipGap false false false cur.rest cur.line cur.column

/-- over blanks on the same line -/
def Cursor.overSpaces (cur : Cursor) : Cursor := cur.over (cur.rest.takeWhile isSpace)

/-- a marker of three characters at the beginning of a line -/
def Cursor.atMarker (cur : Cursor) (mark : Char) : Bool :=
  match cur.rest with
  | a :: b :: c :: rest => cur.column = 0 && a = mark && b = mark && c = mark && atGap rest
  | _ => false

def Cursor.atEnd (cur : Cursor) : Bool := cur.rest.isEmpty || cur.atMarker '-' || cur.atMarker '.'

/-- an indicator stands here with a gap behind it -/
def Cursor.at (cur : Cursor) (indicator : Char) : Bool :=
  match cur.rest with
  | c :: rest => c = indicator && atGap rest && !cur.atMarker '-'
  | [] => false

/-! ## Scalars -/

/-- a run of blanks and line ends inside of a scalar: one line end is a blank, more are one less -/
def folded (run : List Char) (escaped : Bool) : List Char :=
  let breaks := run.count '\n'
  if escaped then List.replicate breaks '\n'
  else if breaks = 0 then run
  else if breaks = 1 then [' ']
  else List.replicate (breaks - 1) '\n'

/-- the run of blanks and line ends that begins here, and what is behind it -/
def Cursor.gapRun (cur : Cursor) : List Char × Cursor :=
  let run := cur.rest.takeWhile isGap
  (run, cur.over run)

/-- the character that an escape of `n` hexadecimal digits stands for -/
def hexEscape? (n : Nat) (cs : List Char) : Option Char := do
  let ds := cs.take n
  if ds.length < n then none
  else
    let code ← Numeral.digits? 16 ds
    if code.isValidChar then some (Char.ofNat code) else none

/-- the character behind a backslash, and how many hexadecimal digits belong to it -/
def escape? (c : Char) (rest : List Char) : Option (Char × Nat) :=
  match c with
  | '0' => some ('\x00', 0)
  | 'a' => some ('\x07', 0)
  | 'b' => some ('\x08', 0)
  | 't' | '\t' => some ('\t', 0)
  | 'n' => some ('\n', 0)
  | 'v' => some ('\x0b', 0)
  | 'f' => some ('\x0c', 0)
  | 'r' => some ('\r', 0)
  | 'e' => some ('\x1b', 0)
  | ' ' => some (' ', 0)
  | '"' => some ('"', 0)
  | '/' => some ('/', 0)
  | '\\' => some ('\\', 0)
  | 'N' => some ('\x85', 0)
  | '_' => some ('\xa0', 0)
  | 'L' => some ('\u2028', 0)
  | 'P' => some ('\u2029', 0)
  | 'x' => (hexEscape? 2 rest).map (·, 2)
  | 'u' => (hexEscape? 4 rest).map (·, 4)
  | 'U' => (hexEscape? 8 rest).map (·, 8)
  | _ => none

/-- a quoted scalar behind its opening quote, in reverse onto `acc` -/
def quoted? (quote : Char) : Nat → List Char → Step String
  | 0, _, _ => none
  | n + 1, acc, cur =>
    match cur.rest with
    | [] => none
    | c :: rest =>
      if cur.atMarker '-' || cur.atMarker '.' then none
      else if isGap c then
        let (run, cur) := cur.gapRun
        quoted? quote n ((folded run false).reverse ++ acc) cur
      else if c = quote then
        match quote, rest with
        | '\'', '\'' :: _ => quoted? quote n ('\'' :: acc) (cur.over ['\'', '\''])
        | _, _ => some (String.ofList acc.reverse, cur.advance c rest)
      else if c = '\\' && quote = '"' then
        let cur := cur.advance c rest
        match rest with
        | '\n' :: rest =>
          let (run, cur) := (cur.advance '\n' rest).gapRun
          quoted? quote n ((folded run true).reverse ++ acc) cur
        | e :: rest => do
          let (c, digits) ← escape? e rest
          quoted? quote n (c :: acc) (cur.over (e :: rest.take digits))
        | [] => none
      else quoted? quote n (c :: acc) (cur.advance c rest)

/-- characters that end a plain scalar inside of flow collections -/
def isFlowIndicator (c : Char) : Bool := c = ',' || c = '[' || c = ']' || c = '{' || c = '}'

/-- a word of a plain scalar; a colon ends it before a gap and must not stand before an indicator in a flow -/
def word? (flow : Bool) : List Char → Option (List Char)
  | [] => some []
  | c :: rest =>
    if isGap c || (flow && isFlowIndicator c) then some []
    else if c = ':' then
      if flow && (rest.head?.any fun d => isFlowIndicator d || d = '?') then none
      else if atGap rest then some []
      else (word? flow rest).map (c :: ·)
    else (word? flow rest).map (c :: ·)

/-- a tab stands in the indentation of a further line, before column `minColumn` -/
def tabTooEarly (minColumn : Nat) : Option Nat → List Char → Bool
  | _, [] => false
  | none, c :: rest => tabTooEarly minColumn (if c = '\n' then some 0 else none) rest
  | some column, c :: rest =>
    if c = '\n' then tabTooEarly minColumn (some 0) rest
    else (c = '\t' && column < minColumn) || tabTooEarly minColumn (some (column + 1)) rest

/-- the words of a plain scalar, in reverse onto `acc`; further lines must reach column `minColumn` in a block -/
def plain? (flow : Bool) (minColumn : Nat) : Nat → List Char → Step String
  | 0, _, _ => none
  | n + 1, acc, cur => do
    let word ← word? flow cur.rest
    let stop := cur.over word
    let acc := word.reverse ++ acc
    let (run, next) := stop.gapRun
    let done := some (String.ofList acc.reverse, stop)
    if !flow && tabTooEarly minColumn none run then none
    else if next.rest.isEmpty || run.isEmpty then done
    else if next.atMarker '-' || next.atMarker '.' then done
    else if next.rest.head? = some '#' then done
    else if run.contains '\n' && !flow && next.column < minColumn then done
    else
      let following ← word? flow next.rest
      if following.isEmpty then done
      else plain? flow minColumn n ((folded run false).reverse ++ acc) next

/-- whether a plain scalar can begin with these characters -/
def startsPlain (flow : Bool) : List Char → Bool
  | [] => false
  | c :: rest =>
    if isGap c then false
    else if c = '-' then !atGap rest
    else if c = '?' || c = ':' then !flow && !atGap rest
    else !("[]\x7b\x7d,#&*!|>'\"%@".toList.contains c || c.toNat = 96)

def scalar? (flow : Bool) (minColumn : Nat) (cur : Cursor) : Option (Yaml × Cursor) :=
  match cur.rest with
  | [] => none
  | c :: rest =>
    if c = '"' || c = '\'' then
      (quoted? c (rest.length + 1) [] (cur.advance c rest)).map fun (s, cur) => (scalar false s, cur)
    else if startsPlain flow cur.rest then
      (plain? flow minColumn (cur.rest.length + 1) [] cur).map fun (s, cur) => (scalar true s, cur)
    else none

/-! ## Flow collections -/

/-- whether the colon of a key stands here, on the line where the key began -/
def Cursor.atFlowColon (cur : Cursor) (keyLine : Nat) : Option Bool :=
  match cur.rest with
  | ':' :: _ => if cur.line = keyLine then some true else none
  | _ => some false

mutual

/-- a node inside of a flow collection -/
def flowNode? : Nat → Step Yaml
  | 0, _ => none
  | n + 1, cur =>
    match cur.rest with
    | '[' :: rest => (flowItems? n [] (cur.advance '[' rest)).map fun (ys, cur) => (sequence ys, cur)
    | '\x7b' :: rest => (flowEntries? n [] (cur.advance '\x7b' rest)).map fun (es, cur) => (mapping es, cur)
    | _ => scalar? true 0 cur

/-- the value behind a colon of a flow collection, which may be left out -/
def flowValue? : Nat → Step Yaml
  | 0, _ => none
  | n + 1, cur =>
    let cur := (cur.over [':']).toFlowToken
    match cur.rest with
    | c :: _ => if c = ',' || c = ']' || c = '}' then some (blank, cur) else flowNode? n cur
    | [] => none

/-- the items of a flow sequence up to its bracket, in reverse onto `acc`; a pair is a mapping of its own -/
def flowItems? : Nat → List Yaml → Step (List Yaml)
  | 0, _, _ => none
  | n + 1, acc, cur => do
    let cur := cur.toFlowToken
    match cur.rest with
    | ']' :: rest => some (acc.reverse, cur.advance ']' rest)
    | _ =>
      let (key, stop) ← flowNode? n cur
      let next := stop.toFlowToken
      let (item, stop) ← if ← next.atFlowColon cur.line then
          (flowValue? n next).map fun (v, stop) => (mapping [(key, v)], stop)
        else some (key, next)
      let next := stop.toFlowToken
      match next.rest with
      | ',' :: rest => flowItems? n (item :: acc) (next.advance ',' rest)
      | ']' :: rest => some ((item :: acc).reverse, next.advance ']' rest)
      | _ => none

/-- the entries of a flow mapping up to its brace, in reverse onto `acc` -/
def flowEntries? : Nat → List (Yaml × Yaml) → Step (List (Yaml × Yaml))
  | 0, _, _ => none
  | n + 1, acc, cur => do
    let cur := cur.toFlowToken
    match cur.rest with
    | '\x7d' :: rest => some (acc.reverse, cur.advance '\x7d' rest)
    | _ =>
      let (key, stop) ← flowNode? n cur
      let next := stop.toFlowToken
      let (v, stop) ← if ← next.atFlowColon cur.line then flowValue? n next else some (blank, next)
      let next := stop.toFlowToken
      match next.rest with
      | ',' :: rest => flowEntries? n ((key, v) :: acc) (next.advance ',' rest)
      | '\x7d' :: rest => some (((key, v) :: acc).reverse, next.advance '\x7d' rest)
      | _ => none

end

/-! ## Blocks -/

def inline? (minColumn : Nat) (cur : Cursor) : Option (Yaml × Cursor) :=
  match cur.rest with
  | c :: _ => if c = '[' || c = '{' then flowNode? (2 * cur.rest.length + 2) cur else scalar? false minColumn cur
  | [] => none

/-- the key of a block entry and the cursor at its colon -/
def key? (cur : Cursor) : Option (Yaml × Cursor) := do
  let (key, stop) ← scalar? false 0 cur
  let colon := stop.overSpaces
  if colon.line = cur.line && colon.at ':' then some (key, colon) else none

mutual

/-- a node of a block; keys and dashes may begin here only where `opens` holds, and a scalar's further lines must reach
column `minColumn` -/
def blockNode? : Nat → Bool → Nat → Step Yaml
  | 0, _, _, _ => none
  | n + 1, opens, minColumn, cur =>
    if opens && cur.at '-' then (blockItems? n cur.column [] cur).map fun (ys, stop) => (sequence ys, stop)
    else if opens then
      match key? cur with
      | some (key, colon) =>
        (blockEntries? n cur.column [] key colon).map fun (es, stop) => (mapping es, stop)
      | none => inline? minColumn cur
    else inline? minColumn cur

/-- the items of a block sequence at a column, from a dash on, in reverse onto `acc` -/
def blockItems? : Nat → Nat → List Yaml → Step (List Yaml)
  | 0, _, _, _ => none
  | n + 1, column, acc, cur => do
    let dash := cur.over ['-']
    let next := dash.toIndented
    let (item, stop) ← if next.atEnd || (next.line ≠ dash.line && next.column ≤ column) then some (blank, dash)
      else blockNode? n true (column + 1) next
    let next := stop.toToken
    if next.atEnd then some ((item :: acc).reverse, stop)
    else if next.line = stop.line then none
    else if next.column = column && next.at '-' then blockItems? n column (item :: acc) next
    else some ((item :: acc).reverse, stop)

/-- the entries of a block mapping at a column, from the colon of `key` on, in reverse onto `acc` -/
def blockEntries? : Nat → Nat → List (Yaml × Yaml) → Yaml → Step (List (Yaml × Yaml))
  | 0, _, _, _, _ => none
  | n + 1, column, acc, key, cur => do
    let colon := cur.over [':']
    let next := colon.toToken
    let (v, stop) ←
      if next.atEnd then some (blank, colon)
      else if next.line = colon.line then blockNode? n false (column + 1) next
      else if column < next.column then blockNode? n true (column + 1) next
      else if next.column = column && next.at '-' then
        (blockItems? n column [] next).map fun (ys, stop) => (sequence ys, stop)
      else some (blank, colon)
    let acc := (key, v) :: acc
    let next := stop.toToken
    if next.atEnd || (next.line ≠ stop.line && next.column < column) then some (acc.reverse, stop)
    else if next.line ≠ stop.line && next.column = column then
      let (key, colon) ← key? next
      blockEntries? n column acc key colon
    else none

end

/-! ## Documents -/

/-- nothing but a closing marker is left -/
def Cursor.isDone (cur : Cursor) : Bool :=
  let next := cur.toToken
  if next.rest.isEmpty then true
  else if next.atMarker '.' then
    let last := (next.over ['.', '.', '.']).toToken
    last.rest.isEmpty
  else false

/-- the root node, on a line of its own or behind an opening marker, where no key or dash may begin -/
def root? (opens : Bool) (cur : Cursor) : Option Yaml := do
  if cur.atEnd then
    if cur.isDone then some blank else none
  else
    let (y, stop) ← blockNode? (2 * cur.rest.length + 2) opens 0 cur
    if stop.isDone then some y else none

/-- the document a text holds; a text without one is refused -/
def parse? (text : String) : Option Yaml := do
  let cs := match text.toList with
    | '\ufeff' :: cs => cs
    | cs => cs
  if !cs.all isPrintable then none
  else
    let cur := Cursor.toIndented ⟨unifyBreaks cs, 0, 0⟩
    if cur.rest.isEmpty then none
    else if cur.atMarker '-' then
      let marker := cur.over ['-', '-', '-']
      let next := marker.toToken
      root? (next.line ≠ marker.line) next
    else root? true cur

end MatrixEngine.Yaml
