import NetbsdAvr32.Outcome

-- common/lib/libprop/prop_data.c: data objects written as base64 text and read back.
namespace NetbsdAvr32.PropData

abbrev Byte := BitVec 8

-- A call that does not go through: it returns false, or it does not return.
inductive Stop where
  | refused
  | halt (why : Halt)

abbrev Run := Except Stop
def char (c : Char) : Byte := BitVec.ofNat 8 c.toNat

def base64 : List Byte := ['A','B','C','D','E','F','G','H','I','J','K','L','M','N','O','P','Q','R','S','T','U','V','W','X','Y','Z',
  'a','b','c','d','e','f','g','h','i','j','k','l','m','n','o','p','q','r','s','t','u','v','w','x','y','z',
  '0','1','2','3','4','5','6','7','8','9','+','/'].map char

def pad64 : Byte := char '='

-- struct _prop_object_externalize_context with the asserts of append_char; poec_len is the length of
-- the buffer's text.
structure Context where
  buf : List Byte
  capacity : Nat
  depth : Nat
  some : capacity ≠ 0
  fits : buf.length ≤ capacity

def bufExpand : Nat := 256

-- realloc tells which sizes can be had.
def appendChar (realloc : Nat → Bool) (ctx : Context) (c : Byte) : Run Context :=
  if full : ctx.buf.length = ctx.capacity then
    if realloc (ctx.capacity + bufExpand) then
      .ok {ctx with buf := ctx.buf ++ [c],capacity := ctx.capacity + bufExpand,some := by unfold bufExpand; omega,
                    fits := by rw [List.length_append,List.length_singleton]; unfold bufExpand; omega}
    else .error .refused
  else .ok {ctx with buf := ctx.buf ++ [c],fits := by have := ctx.fits; rw [List.length_append,List.length_singleton]; omega}

def appendCstring (realloc : Nat → Bool) : Context → List Byte → Run Context
  | ctx, [] => .ok ctx
  | ctx, c :: cp => do
    let ctx ← appendChar realloc ctx c
    appendCstring realloc ctx cp

def dataTag : List Byte := ['d','a','t','a'].map char

def startTag (realloc : Nat → Bool) (ctx : Context) (tag : List Byte) : Run Context := do
  let ctx ← appendCstring realloc ctx (List.replicate ctx.depth (char '\t'))
  let ctx ← appendChar realloc ctx (char '<')
  let ctx ← appendCstring realloc ctx tag
  appendChar realloc ctx (char '>')

def endTag (realloc : Nat → Bool) (ctx : Context) (tag : List Byte) : Run Context := do
  let ctx ← appendChar realloc ctx (char '<')
  let ctx ← appendChar realloc ctx (char '/')
  let ctx ← appendCstring realloc ctx tag
  let ctx ← appendChar realloc ctx (char '>')
  appendChar realloc ctx (char '\n')

def emptyTag (realloc : Nat → Bool) (ctx : Context) (tag : List Byte) : Run Context := do
  let ctx ← appendCstring realloc ctx (List.replicate ctx.depth (char '\t'))
  let ctx ← appendChar realloc ctx (char '<')
  let ctx ← appendCstring realloc ctx tag
  let ctx ← appendChar realloc ctx (char '/')
  let ctx ← appendChar realloc ctx (char '>')
  appendChar realloc ctx (char '\n')

-- output[0] to output[3].
def output0 (a : Byte) : Byte := BitVec.ofNat 8 (a.toNat >>> 2)
def output1 (a b : Byte) : Byte := BitVec.ofNat 8 (((a.toNat &&& 0x03) <<< 4) + (b.toNat >>> 4))
def output2 (b c : Byte) : Byte := BitVec.ofNat 8 (((b.toNat &&& 0x0f) <<< 2) + (c.toNat >>> 6))
def output3 (c : Byte) : Byte := c &&& 0x3f

-- A character of the table behind the assert.
def lookup (output : Byte) : Run Byte := if output.toNat < 64 then .ok (base64.getD output.toNat 0) else .error (.halt (.panic "output < 64"))

def externalizeLoop (realloc : Nat → Bool) (ctx : Context) : List Byte → Run Context
  | a :: b :: c :: src => do
    let ctx ← appendChar realloc ctx (← lookup (output0 a))
    let ctx ← appendChar realloc ctx (← lookup (output1 a b))
    let ctx ← appendChar realloc ctx (← lookup (output2 b c))
    let ctx ← appendChar realloc ctx (← lookup (output3 c))
    externalizeLoop realloc ctx src
  | [a,b] => do
    let ctx ← appendChar realloc ctx (← lookup (output0 a))
    let ctx ← appendChar realloc ctx (← lookup (output1 a b))
    let ctx ← appendChar realloc ctx (← lookup (output2 b 0))
    appendChar realloc ctx pad64
  | [a] => do
    let ctx ← appendChar realloc ctx (← lookup (output0 a))
    let ctx ← appendChar realloc ctx (← lookup (output1 a 0))
    let ctx ← appendChar realloc ctx pad64
    appendChar realloc ctx pad64
  | [] => .ok ctx

def externalize (realloc : Nat → Bool) (ctx : Context) (src : List Byte) : Run Context :=
  if src.length = 0 then emptyTag realloc ctx dataTag
  else do
    let ctx ← startTag realloc ctx dataTag
    let ctx ← externalizeLoop realloc ctx src
    endTag realloc ctx dataTag

def eof (ch : Byte) : Bool := ch == 0
def isSpace (ch : Byte) : Bool := ch == char ' ' || ch == char '\t' || ch == char '\n' || ch == char '\r' || eof ch

-- Where a decoding stands; the target is NULL or a buffer.
structure Decoder where
  target : Option (List Byte)
  tarindex : Nat
  state : Nat

def alter (target : List Byte) (i : Nat) (f : Byte → Byte) : Run (List Byte) :=
  match target[i]? with
  | some byte => .ok (target.set i (f byte))
  | none => .error (.halt (.fault "access past target"))

-- What each state does with the target, if there is one.
def fill (targsize : Nat) (target : Option (List Byte)) (last : Nat) (write : List Byte → Run (List Byte)) : Run (Option (List Byte)) :=
  match target with
  | none => .ok none
  | some target => if last ≥ targsize then .error .refused else some <$> write target

def store (targsize : Nat) (d : Decoder) (pos : Nat) : Run Decoder :=
  let i := d.tarindex
  match d.state with
  | 0 => do
    let target ← fill targsize d.target i fun t => alter t i fun _ => BitVec.ofNat 8 (pos <<< 2)
    .ok {target := target,tarindex := i,state := 1}
  | 1 => do
    let target ← fill targsize d.target (i + 1) fun t => do
      let t ← alter t i (· ||| BitVec.ofNat 8 (pos >>> 4))
      alter t (i + 1) fun _ => BitVec.ofNat 8 ((pos &&& 0xf) <<< 4)
    .ok {target := target,tarindex := i + 1,state := 2}
  | 2 => do
    let target ← fill targsize d.target (i + 1) fun t => do
      let t ← alter t i (· ||| BitVec.ofNat 8 (pos >>> 2))
      alter t (i + 1) fun _ => BitVec.ofNat 8 ((pos &&& 0x3) <<< 6)
    .ok {target := target,tarindex := i + 1,state := 3}
  | 3 => do
    let target ← fill targsize d.target i fun t => alter t i (· ||| BitVec.ofNat 8 pos)
    .ok {target := target,tarindex := i + 1,state := 0}
  | _ => .error (.halt (.panic "0"))

-- The text is what lies from poic_cp on, and reading past it faults.
def read : List Byte → Run Byte
  | [] => .error (.halt (.fault "read past the NUL"))
  | ch :: _ => .ok ch

-- The first loop: the character it ended with and the rest of the text.
def scan (targsize : Nat) : Decoder → List Byte → Run (Byte × List Byte × Decoder)
  | _, [] => .error (.halt (.fault "read past the NUL"))
  | d, ch :: src =>
    if eof ch then .error .refused
    else if isSpace ch then scan targsize d src
    else if ch = char '<' then .ok (ch,ch :: src,d)
    else if ch = pad64 then .ok (ch,src,d)
    else match base64.idxOf? ch with
      | none => .error .refused
      | some pos => do
        let d ← store targsize d pos
        scan targsize d src

-- Skip whitespace: the character that is none, and the text behind it.
def skipSpace : List Byte → Run (Byte × List Byte)
  | [] => .error (.halt (.fault "read past the NUL"))
  | ch :: src =>
    if ch = char '<' then .ok (ch,src)
    else if eof ch then .error .refused
    else if isSpace ch then skipSpace src
    else .ok (ch,src)

-- Is there anything but whitespace before the next tag?
def onlySpace : List Byte → Run (List Byte)
  | [] => .error (.halt (.fault "read past the NUL"))
  | ch :: src =>
    if ch = char '<' then .ok (ch :: src)
    else if eof ch then .error .refused
    else if isSpace ch then onlySpace src
    else .error .refused

-- What follows the base64 characters.
def finish (ch : Byte) (state : Nat) (src : List Byte) : Run (List Byte) :=
  if ch = pad64 then do
    let ch ← read src
    if eof ch then .error .refused
    else match state with
      | 0 => .error .refused
      | 1 => .error .refused
      | 2 => do
        let (ch,src) ← skipSpace src
        if ch ≠ pad64 then .error .refused
        else do
          let _ ← read src
          onlySpace src
      | 3 => onlySpace src
      | _ => .ok src
  else if state ≠ 0 then .error .refused
  else .ok src

-- Returns *sizep, *cpp and the target.
def internalizeDecode (target : Option (List Byte)) (targsize : Nat) (src : List Byte) : Run (Nat × List Byte × Option (List Byte)) := do
  let (ch,src,d) ← scan targsize {target := target,tarindex := 0,state := 0} src
  let src ← finish ch d.state src
  let ch ← read src
  if ch ≠ char '<' then .error (.halt (.panic "*src == '<'"))
  else .ok (d.tarindex,src,d.target)
end NetbsdAvr32.PropData
