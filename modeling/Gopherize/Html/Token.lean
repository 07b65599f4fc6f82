import Gopherize.Core.Fault

/-! html/token.go: the tokenizer. It reads bytes through a buffer that is refilled
from a reader, and records a token as spans of that buffer. Loops get fuel. -/
namespace Gopherize.Html
open GoCore

inductive TokenType where
  | errorToken | textToken | startTagToken | endTagToken | selfClosingTagToken | commentToken
  | doctypeToken
  deriving DecidableEq, Repr

inductive Err where
  | eof
  | noProgress
  | bufferExceeded
  | other (message : String)
  deriving DecidableEq, Repr

abbrev Bytes := List UInt8

def byte (c : Char) : UInt8 := c.val.toUInt8

def bytes (s : String) : Bytes := s.toList.map byte

/-- An `io.Reader`: the bytes it still has, how many it is willing to give at the next
calls, and whether its last bytes come together with the final error. -/
structure Reader where
  rest : Bytes
  sizes : List Nat := []
  eager : Bool := false
  final : Err := .eof
  deriving DecidableEq, Repr

/-- `r.Read(b)` for a buffer with the given room. -/
def Reader.read (r : Reader) (room : Nat) : Bytes × Option Err × Reader :=
  if r.rest = [] then ([], some r.final, r)
  else
    let n := min room (r.sizes.headD r.rest.length)
    let after := { r with rest := r.rest.drop n, sizes := r.sizes.tail }
    (r.rest.take n, if r.eager && after.rest = [] then some r.final else none, after)

def readAtLeastOneByte (r : Reader) (room : Nat) : (tries : Nat) → Bytes × Option Err × Reader
  | 0 => ([], some .noProgress, r)
  | tries + 1 =>
    let (b, err, after) := r.read room
    if b ≠ [] ∨ err ≠ none then (b, err, after) else readAtLeastOneByte after room tries

/-- A range of bytes in the buffer. -/
structure Span where
  start : Int := 0
  stop : Int := 0
  deriving DecidableEq, Repr

def Span.sub (s : Span) (x : Int) : Span := ⟨s.start - x, s.stop - x⟩

def Span.startAt (s : Span) (i : Int) : Span := ⟨i, s.stop⟩

def Span.stopAt (s : Span) (i : Int) : Span := ⟨s.start, i⟩

structure Tokenizer where
  r : Reader
  tt : TokenType := .errorToken
  err : Option Err := none
  readErr : Option Err := none
  raw : Span := {}
  buf : Bytes := []
  /-- The capacity of `buf`. -/
  cap : Nat := 4096
  maxBuf : Nat := 0
  data : Span := {}
  pendingAttr : Span × Span := ({}, {})
  attr : List (Span × Span) := []
  rawTag : Bytes := []
  textIsRaw : Bool := false
  convertNUL : Bool := false
  allowCDATA : Bool := false
  deriving DecidableEq, Repr

/-- `buf[s.start:s.end]`. -/
def slice (buf : Bytes) (s : Span) : Except Fault Bytes :=
  if 0 ≤ s.start ∧ s.start ≤ s.stop ∧ s.stop ≤ buf.length then
    pure ((buf.take s.stop.toNat).drop s.start.toNat)
  else throw (.panicked "slice bounds out of range")

/-- `buf[i]`. -/
def byteAt (buf : Bytes) (i : Int) : Except Fault UInt8 :=
  if 0 ≤ i then
    match buf[i.toNat]? with
    | some c => pure c
    | none => throw (.panicked "index out of range")
  else throw (.panicked "index out of range")

abbrev Scan := StateT Tokenizer (Except Fault)

/-- The bytes of the current token at the front of the buffer, with all spans, and more bytes
behind them. -/
def moveToFront (z : Tokenizer) (live more : Bytes) : Tokenizer :=
  let x := z.raw.start
  { z with
    buf := live ++ more, raw := ⟨0, live.length⟩, data := z.data.sub x,
    pendingAttr := (z.pendingAttr.1.sub x, z.pendingAttr.2.sub x),
    attr := z.attr.map fun a => (a.1.sub x, a.2.sub x) }

/-- `readByte` with an exhausted buffer; the result says whether there are more bytes. -/
def fill (z : Tokenizer) : Except Fault (Bool × Tokenizer) :=
  match z.readErr with
  | some e => pure (false, { z with err := some e })
  | none => do
    let live ← slice z.buf z.raw
    let cap := if 2 * live.length > z.cap then 2 * z.cap else z.cap
    let (more, readErr, r) := readAtLeastOneByte z.r (cap - live.length) 100
    let z := { moveToFront z live more with r := r, readErr := readErr, cap := cap }
    if more = [] then pure (false, { z with err := readErr }) else pure (true, z)

/-- `readByte` with a byte in the buffer. -/
def takeByte (z : Tokenizer) : Except Fault (UInt8 × Tokenizer) := do
  let x ← byteAt z.buf z.raw.stop
  let z := { z with raw := ⟨z.raw.start, z.raw.stop + 1⟩ }
  if 0 < z.maxBuf ∧ (z.maxBuf : Int) ≤ z.raw.stop - z.raw.start then
    pure (0, { z with err := some .bufferExceeded })
  else pure (x, z)

def readByte : Scan UInt8 := fun z => do
  let (available, z) ← if z.buf.length ≤ z.raw.stop then fill z else pure (true, z)
  if available then takeByte z else pure (0, z)

/-- `z.err != nil`. -/
def failed : Scan Bool := do pure (← get).err.isSome

/-- `z.raw.end -= n`. -/
def back (n : Int) : Scan Unit := modify fun z => { z with raw := z.raw.stopAt (z.raw.stop - n) }

/-- `z.data.start = z.raw.end - n`. -/
def dataStart (n : Int) : Scan Unit :=
  modify fun z => { z with data := z.data.startAt (z.raw.stop - n) }

/-- `z.data.end = z.raw.end - n`. -/
def dataEnd (n : Int) : Scan Unit :=
  modify fun z => { z with data := z.data.stopAt (z.raw.stop - n) }

/-- `z.pendingAttr[0].start = z.raw.end - n`. -/
def keyStart (n : Int) : Scan Unit :=
  modify fun z => { z with
    pendingAttr := (z.pendingAttr.1.startAt (z.raw.stop - n), z.pendingAttr.2) }

def keyEnd (n : Int) : Scan Unit :=
  modify fun z => { z with
    pendingAttr := (z.pendingAttr.1.stopAt (z.raw.stop - n), z.pendingAttr.2) }

def valStart (n : Int) : Scan Unit :=
  modify fun z => { z with
    pendingAttr := (z.pendingAttr.1, z.pendingAttr.2.startAt (z.raw.stop - n)) }

def valEnd (n : Int) : Scan Unit :=
  modify fun z => { z with
    pendingAttr := (z.pendingAttr.1, z.pendingAttr.2.stopAt (z.raw.stop - n)) }

def isSpace (c : UInt8) : Bool := [0x20, 0x0a, 0x0d, 0x09, 0x0c].contains c

def isLetter (c : UInt8) : Bool :=
  byte 'a' ≤ c && c ≤ byte 'z' || byte 'A' ≤ c && c ≤ byte 'Z'

def lowerByte (c : UInt8) : UInt8 := if byte 'A' ≤ c && c ≤ byte 'Z' then c + 32 else c

/-- The loop of `skipWhiteSpace`. -/
def skipLoop : Nat → Scan Unit
  | 0 => throw .outOfFuel
  | fuel + 1 => do
    let c ← readByte
    if ← failed then pure ()
    else if isSpace c then skipLoop fuel
    else back 1

def skipWhiteSpace (fuel : Nat) : Scan Unit := do
  if ← failed then pure () else skipLoop fuel

/-- How a comparison of the input with a word ends. -/
inductive Compared where
  | whole | mismatch | error
  deriving DecidableEq, Repr

/-- The loops that compare the input byte by byte with a word. -/
def expect (same : UInt8 → UInt8 → Bool) : Bytes → Scan Compared
  | [] => pure .whole
  | s :: ss => do
    let c ← readByte
    if ← failed then pure .error
    else if same s c then expect same ss
    else pure .mismatch

/-- The loops that read up to a byte that ends what is read: `past` bytes are left out
of the span but consumed, `upto` bytes are given back. -/
def scanTo (past upto : UInt8 → Bool) (setEnd : Int → Scan Unit) : Nat → Scan Unit
  | 0 => throw .outOfFuel
  | fuel + 1 => do
    let c ← readByte
    if ← failed then setEnd 0
    else if past c then setEnd 1
    else if upto c then do
      back 1
      setEnd 0
    else scanTo past upto setEnd fuel

/-- `c == t || c == t-('a'-'A')`. -/
def sameLetter (t c : UInt8) : Bool := c = t || c = t - 32

def endsTag (c : UInt8) : Bool := isSpace c || c = byte '/' || c = byte '>'

/-- The byte behind the tag's name, which has to end the tag. -/
def afterRawTag : Compared → Scan Bool
  | .error => pure false
  | .mismatch => do
    back 1
    pure false
  | .whole => do
    let c ← readByte
    if ← failed then pure false
    else if endsTag c then pure true
    else do
      back 1
      pure false

/-- The comparison of `readRawEndTag`, up to the byte behind the tag's name. -/
def rawEndTag : Scan Bool := do afterRawTag (← expect sameLetter (← get).rawTag)

def readRawEndTag : Scan Bool := do
  if ← rawEndTag then do
    -- 2 for the leading "</" and 1 for the byte behind the name
    back (3 + (← get).rawTag.length)
    pure true
  else pure false

/-- The labels of `readScript`. -/
inductive Script where
  | data | dataLessThanSign | dataEndTagOpen | dataEscapeStart | dataEscapeStartDash
  | escaped | escapedDash | escapedDashDash | escapedLessThanSign | escapedEndTagOpen
  | doubleEscapeStart | doubleEscaped | doubleEscapedDash | doubleEscapedDashDash
  | doubleEscapedLessThanSign | doubleEscapeEnd
  deriving DecidableEq, Repr

/-- Read a byte and go on from it, or return. -/
def onByte (next : UInt8 → Scan (Option Script)) : Scan (Option Script) := do
  let c ← readByte
  if ← failed then pure none else next c

/-- Give the byte back and go to a label. -/
def backTo (label : Script) : Scan (Option Script) := do
  back 1
  pure (some label)

/-- An end tag returns; otherwise go to a label. -/
def endTagOr (label : Script) : Scan (Option Script) := do
  if ← readRawEndTag then pure none
  else if ← failed then pure none
  else pure (some label)

/-- What follows a label of `readScript`, up to the next `goto`. -/
def scriptStep : Script → Scan (Option Script)
  | .data => onByte fun c =>
    if c = byte '<' then pure (some .dataLessThanSign) else pure (some .data)
  | .dataLessThanSign => onByte fun c =>
    if c = byte '/' then pure (some .dataEndTagOpen)
    else if c = byte '!' then pure (some .dataEscapeStart)
    else backTo .data
  | .dataEndTagOpen => endTagOr .data
  | .dataEscapeStart => onByte fun c =>
    if c = byte '-' then pure (some .dataEscapeStartDash) else backTo .data
  | .dataEscapeStartDash => onByte fun c =>
    if c = byte '-' then pure (some .escapedDashDash) else backTo .data
  | .escaped => onByte fun c =>
    if c = byte '-' then pure (some .escapedDash)
    else if c = byte '<' then pure (some .escapedLessThanSign)
    else pure (some .escaped)
  | .escapedDash => onByte fun c =>
    if c = byte '-' then pure (some .escapedDashDash)
    else if c = byte '<' then pure (some .escapedLessThanSign)
    else pure (some .escaped)
  | .escapedDashDash => onByte fun c =>
    if c = byte '-' then pure (some .escapedDashDash)
    else if c = byte '<' then pure (some .escapedLessThanSign)
    else if c = byte '>' then pure (some .data)
    else pure (some .escaped)
  | .escapedLessThanSign => onByte fun c =>
    if c = byte '/' then pure (some .escapedEndTagOpen)
    else if isLetter c then pure (some .doubleEscapeStart)
    else backTo .data
  | .escapedEndTagOpen => endTagOr .escaped
  | .doubleEscapeStart => do
    back 1
    match ← expect sameLetter (bytes "script") with
    | .error => pure none
    | .mismatch => backTo .escaped
    | .whole => onByte fun c =>
      if endsTag c then pure (some .doubleEscaped) else backTo .escaped
  | .doubleEscaped => onByte fun c =>
    if c = byte '-' then pure (some .doubleEscapedDash)
    else if c = byte '<' then pure (some .doubleEscapedLessThanSign)
    else pure (some .doubleEscaped)
  | .doubleEscapedDash => onByte fun c =>
    if c = byte '-' then pure (some .doubleEscapedDashDash)
    else if c = byte '<' then pure (some .doubleEscapedLessThanSign)
    else pure (some .doubleEscaped)
  | .doubleEscapedDashDash => onByte fun c =>
    if c = byte '-' then pure (some .doubleEscapedDashDash)
    else if c = byte '<' then pure (some .doubleEscapedLessThanSign)
    else if c = byte '>' then pure (some .data)
    else pure (some .doubleEscaped)
  | .doubleEscapedLessThanSign => onByte fun c =>
    if c = byte '/' then pure (some .doubleEscapeEnd) else backTo .doubleEscaped
  | .doubleEscapeEnd => do
    if ← readRawEndTag then do
      back (-9)
      pure (some .escaped)
    else if ← failed then pure none
    else pure (some .doubleEscaped)

def scriptLoop : Nat → Script → Scan Unit
  | 0, _ => throw .outOfFuel
  | fuel + 1, label => do
    match ← scriptStep label with
    | none => pure ()
    | some label => scriptLoop fuel label

def readScript (fuel : Nat) : Scan Unit := do
  scriptLoop fuel .data
  dataEnd 0

/-- The loop of `readRawOrRCDATA`. -/
def rcdataLoop : Nat → Scan Unit
  | 0 => throw .outOfFuel
  | fuel + 1 => do
    let c ← readByte
    if ← failed then pure ()
    else if c ≠ byte '<' then rcdataLoop fuel
    else do
      let c ← readByte
      if ← failed then pure ()
      else if c ≠ byte '/' then rcdataLoop fuel
      else if ← readRawEndTag then pure ()
      else if ← failed then pure ()
      else rcdataLoop fuel

def readRawOrRCDATA (fuel : Nat) : Scan Unit := do
  if (← get).rawTag = bytes "script" then do
    readScript fuel
    modify fun z => { z with textIsRaw := true, rawTag := [] }
  else do
    rcdataLoop fuel
    dataEnd 0
    modify fun z => { z with
      textIsRaw := z.rawTag ≠ bytes "textarea" && z.rawTag ≠ bytes "title", rawTag := [] }

def commentLoop : Nat → (dashCount : Nat) → Scan Unit
  | 0, _ => throw .outOfFuel
  | fuel + 1, dashCount => do
    let c ← readByte
    if ← failed then dataEnd (min dashCount 2)
    else if c = byte '-' then commentLoop fuel (dashCount + 1)
    else if c = byte '>' ∧ 2 ≤ dashCount then dataEnd 3
    else if c = byte '!' ∧ 2 ≤ dashCount then do
      let c ← readByte
      if ← failed then dataEnd 0
      else if c = byte '>' then dataEnd 4
      else commentLoop fuel 0
    else commentLoop fuel 0

def readComment (fuel : Nat) : Scan Unit := do
  dataStart 0
  commentLoop fuel 2
  -- a comment with no data, like <!-->
  modify fun z =>
    if z.data.stop < z.data.start then { z with data := z.data.stopAt z.data.start } else z

def readUntilCloseAngle (fuel : Nat) : Scan Unit := do
  dataStart 0
  scanTo (· = byte '>') (fun _ => false) dataEnd fuel

def readDoctype (fuel : Nat) : Scan Bool := do
  match ← expect (fun s c => c = s || c = s + 32) (bytes "DOCTYPE") with
  | .error => do
    dataEnd 0
    pure false
  | .mismatch => do
    -- back up to read the fragment of "DOCTYPE" again
    modify fun z => { z with raw := z.raw.stopAt z.data.start }
    pure false
  | .whole => do
    skipWhiteSpace fuel
    if ← failed then do
      dataStart 0
      dataEnd 0
      pure true
    else do
      readUntilCloseAngle fuel
      pure true

def cdataLoop : Nat → (brackets : Nat) → Scan Unit
  | 0, _ => throw .outOfFuel
  | fuel + 1, brackets => do
    let c ← readByte
    if ← failed then dataEnd 0
    else if c = byte ']' then cdataLoop fuel (brackets + 1)
    else if c = byte '>' ∧ 2 ≤ brackets then dataEnd 3
    else cdataLoop fuel 0

def readCDATA (fuel : Nat) : Scan Bool := do
  match ← expect (fun s c => c = s) (bytes "[CDATA[") with
  | .error => do
    dataEnd 0
    pure false
  | .mismatch => do
    modify fun z => { z with raw := z.raw.stopAt z.data.start }
    pure false
  | .whole => do
    dataStart 0
    cdataLoop fuel 0
    pure true

def readMarkupDeclaration (fuel : Nat) : Scan TokenType := do
  dataStart 0
  let c ← readByte
  if ← failed then do
    dataEnd 0
    pure .commentToken
  else do
    let d ← readByte
    if ← failed then do
      dataEnd 0
      pure .commentToken
    else if c = byte '-' ∧ d = byte '-' then do
      readComment fuel
      pure .commentToken
    else do
      back 2
      if ← readDoctype fuel then pure .doctypeToken
      else if ← (do if (← get).allowCDATA then readCDATA fuel else pure false) then do
        modify fun z => { z with convertNUL := true }
        pure .textToken
      else do
        readUntilCloseAngle fuel
        pure .commentToken

/-- The comparison of `startTagIn` with one word, from index `i` on. -/
def matchesAt (buf : Bytes) : Int → Bytes → Except Fault Bool
  | _, [] => pure true
  | i, s :: ss => do
    let c ← byteAt buf i
    if lowerByte c = s then matchesAt buf (i + 1) ss else pure false

def startTagIn (z : Tokenizer) : List Bytes → Except Fault Bool
  | [] => pure false
  | s :: ss => do
    if z.data.stop - z.data.start ≠ s.length then startTagIn z ss
    else if ← matchesAt z.buf z.data.start s then pure true
    else startTagIn z ss

/-- The elements with raw text, by the first letter of the tag. -/
def rawNames (c : UInt8) : List Bytes :=
  if c = byte 'i' then [bytes "iframe"]
  else if c = byte 'n' then [bytes "noembed", bytes "noframes", bytes "noscript"]
  else if c = byte 'p' then [bytes "plaintext"]
  else if c = byte 's' then [bytes "script", bytes "style"]
  else if c = byte 't' then [bytes "textarea", bytes "title"]
  else if c = byte 'x' then [bytes "xmp"]
  else []

def readTagName (fuel : Nat) : Scan Unit := do
  dataStart 1
  scanTo isSpace (fun c => c = byte '/' || c = byte '>') dataEnd fuel

def readTagAttrKey (fuel : Nat) : Scan Unit := do
  keyStart 0
  scanTo (fun c => isSpace c || c = byte '/') (fun c => c = byte '=' || c = byte '>') keyEnd fuel

/-- The part of `readTagAttrVal` behind the equals sign. -/
def readAfterEquals (fuel : Nat) : Scan Unit := do
  skipWhiteSpace fuel
  if ← failed then pure ()
  else do
    let quote ← readByte
    if ← failed then pure ()
    else if quote = byte '>' then back 1
    -- a single or a double quote
    else if quote = 0x27 ∨ quote = 0x22 then do
      valStart 0
      scanTo (· = quote) (fun _ => false) valEnd fuel
    else do
      valStart 1
      scanTo isSpace (· = byte '>') valEnd fuel

def readTagAttrVal (fuel : Nat) : Scan Unit := do
  valStart 0
  valEnd 0
  skipWhiteSpace fuel
  if ← failed then pure ()
  else do
    let c ← readByte
    if ← failed then pure ()
    else if c ≠ byte '=' then back 1
    else readAfterEquals fuel

/-- One attribute in the loop of `readTag`; it is saved if its key is not empty. -/
def readAttr (saveAttr : Bool) (fuel : Nat) : Scan Unit := do
  readTagAttrKey fuel
  readTagAttrVal fuel
  modify fun z =>
    if saveAttr && z.pendingAttr.1.start ≠ z.pendingAttr.1.stop then
      { z with attr := z.attr ++ [z.pendingAttr] }
    else z

/-- The loop of `readTag` over the attributes. -/
def attrLoop (saveAttr : Bool) (fuel : Nat) : Nat → Scan Unit
  | 0 => throw .outOfFuel
  | n + 1 => do
    let c ← readByte
    if ← failed then pure ()
    else if c = byte '>' then pure ()
    else do
      back 1
      readAttr saveAttr fuel
      skipWhiteSpace fuel
      if ← failed then pure () else attrLoop saveAttr fuel n

def readTag (saveAttr : Bool) (fuel : Nat) : Scan Unit := do
  modify fun z => { z with attr := [] }
  readTagName fuel
  skipWhiteSpace fuel
  if ← failed then pure () else attrLoop saveAttr fuel fuel

/-- The part of `readStartTag` that looks at the tag that was read. -/
def classifyTag (z : Tokenizer) : Except Fault (TokenType × Tokenizer) := do
  let c ← byteAt z.buf z.data.start
  let raw ← startTagIn z (rawNames (lowerByte c))
  let rawTag ← if raw then do pure ((← slice z.buf z.data).map lowerByte) else pure z.rawTag
  let last ← byteAt z.buf (z.raw.stop - 2)
  pure (if last = byte '/' then .selfClosingTagToken else .startTagToken, { z with rawTag := rawTag })

def readStartTag (fuel : Nat) : Scan TokenType := do
  readTag true fuel
  if ← failed then pure .errorToken else classifyTag

/-- A token that `Next` has read. -/
def emit (t : TokenType) : Scan TokenType := do
  modify fun z => { z with tt := t }
  pure t

/-- `Next` after "</". -/
def readEndTag (fuel : Nat) : Scan (Option TokenType) := do
  let c ← readByte
  if ← failed then pure none
  else if c = byte '>' then do pure (some (← emit .commentToken))
  else if isLetter c then do
    readTag false fuel
    if ← failed then do pure (some (← emit .errorToken))
    else do pure (some (← emit .endTagToken))
  else do
    back 1
    readUntilCloseAngle fuel
    pure (some (← emit .commentToken))

/-- `Next` after the two bytes that start a token which is not text. -/
def readMarkup (fuel : Nat) (c : UInt8) : Scan (Option TokenType) := do
  if isLetter c then do pure (some (← emit (← readStartTag fuel)))
  else if c = byte '/' then readEndTag fuel
  else if c = byte '!' then do pure (some (← emit (← readMarkupDeclaration fuel)))
  else do
    back 1
    readUntilCloseAngle fuel
    pure (some (← emit .commentToken))

def startsMarkup (c : UInt8) : Bool := isLetter c || c = byte '/' || c = byte '!' || c = byte '?'

/-- The loop of `Next`; without a result the code breaks out of it. -/
def nextLoop (fuel : Nat) : Nat → Scan (Option TokenType)
  | 0 => throw .outOfFuel
  | n + 1 => do
    let c ← readByte
    if ← failed then pure none
    else if c ≠ byte '<' then nextLoop fuel n
    else do
      let c ← readByte
      if ← failed then pure none
      else if !startsMarkup c then do
        back 1
        nextLoop fuel n
      else do
        let z ← get
        -- text before the markup is returned first
        if z.raw.start < z.raw.stop - 2 then do
          back 2
          dataEnd 0
          pure (some (← emit .textToken))
        else readMarkup fuel c

/-- `Next` outside of raw text. -/
def nextContent (fuel : Nat) : Scan TokenType := do
  modify fun z => { z with textIsRaw := false, convertNUL := false }
  match ← nextLoop fuel fuel with
  | some t => pure t
  | none => do
    let z ← get
    if z.raw.start < z.raw.stop then do
      dataEnd 0
      emit .textToken
    else emit .errorToken

/-- Read everything up to the end of the input. -/
def plaintextLoop : Nat → Scan Unit
  | 0 => throw .outOfFuel
  | fuel + 1 => do
    if ← failed then pure ()
    else do
      let _ ← readByte
      plaintextLoop fuel

def readRawText (fuel : Nat) : Scan Unit := do
  if (← get).rawTag = bytes "plaintext" then do
    plaintextLoop fuel
    dataEnd 0
    modify fun z => { z with textIsRaw := true }
  else readRawOrRCDATA fuel

/-- `Next`. -/
def next (fuel : Nat) : Scan TokenType := do
  modify fun z => { z with raw := ⟨z.raw.stop, z.raw.stop⟩, data := ⟨z.raw.stop, z.raw.stop⟩ }
  if ← failed then emit .errorToken
  else if (← get).rawTag ≠ [] then do
    readRawText fuel
    let z ← get
    if z.data.start < z.data.stop then do
      modify fun z => { z with convertNUL := true }
      emit .textToken
    else nextContent fuel
  else nextContent fuel

/-- The bytes of a token as they stand in the input: all of it, its text or name, and its
attributes. -/
structure Lexeme where
  type : TokenType
  raw : Bytes
  data : Bytes
  attr : List (Bytes × Bytes)
  deriving DecidableEq, Repr

/-- What `Raw`, `Text`, `TagName` and `TagAttr` cut out of the buffer. -/
def current (z : Tokenizer) : Except Fault Lexeme := do
  let raw ← slice z.buf z.raw
  let data ← slice z.buf z.data
  let attr ← if z.tt = .startTagToken ∨ z.tt = .selfClosingTagToken then
      z.attr.mapM fun a => do pure (← slice z.buf a.1, ← slice z.buf a.2)
    else pure []
  pure ⟨z.tt, raw, data, attr⟩

/-- Calls of `Next` up to the error token, with what is read off after each. -/
def collect (read : Tokenizer → Except Fault α) (fuel : Nat) : Nat → Tokenizer → Except Fault (List α)
  | 0, _ => throw .outOfFuel
  | n + 1, z => do
    let (t, z) ← next fuel z
    let now ← read z
    if t = .errorToken then pure [now] else do pure (now :: (← collect read fuel n z))

def tokenize (fuel n : Nat) (z : Tokenizer) : Except Fault (List Lexeme) := collect current fuel n z

/-- `strings.ToLower` as far as it can give the name of a raw tag: besides the ASCII letters
only `İ` and the Kelvin sign become ASCII letters. -/
def toLower : Bytes → Bytes
  | 0xC4 :: 0xB0 :: rest => 0x69 :: toLower rest
  | 0xE2 :: 0x84 :: 0xAA :: rest => 0x6B :: toLower rest
  | c :: rest => lowerByte c :: toLower rest
  | [] => []

/-- `NewTokenizerFragment`. -/
def newTokenizerFragment (r : Reader) (contextTag : Bytes) : Tokenizer :=
  { r := r
    rawTag := if [bytes "iframe", bytes "noembed", bytes "noframes", bytes "noscript",
        bytes "plaintext", bytes "script", bytes "style", bytes "title", bytes "textarea",
        bytes "xmp"].contains (toLower contextTag) then toLower contextTag else [] }

end Gopherize.Html
