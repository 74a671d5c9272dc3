import Stress.Environment
import Stress.Composite

/-!
# Commands

What each command of `lib/actions` does once its sons have been run.  All of
them run their sons with `Action::runSonsAction` first, so a command is given
by a function of the results and the environment.  An argument the results do
not have is an access past the end of a vector.

`Sum`, `CeilDivide` and `Repeat` keep the results of their sons to themselves.
Every other command attaches them to the state it returns.
-/

namespace Stress

/-- `result[k]`. -/
def argument (result : List State) (k : Nat) : EnvComp State :=
  match result[k]? with
  | some s => pure s
  | none => Comp.fault .outOfBounds

/-- `result[k]->getIntegerValue()`. -/
def integerArgument (result : List State) (k : Nat) : EnvComp Int := do
  let s ← argument result k
  ofExcept s.getIntegerValue

/-- `result[k]->getStringToSend()`. -/
def wireArgument (result : List State) (k : Nat) : EnvComp Bytes := do
  let s ← argument result k
  pure s.getStringToSend

/-- `c_str()[i]`, which is readable up to the terminating zero. -/
def charAt (s : Bytes) (i : Int) : Except Fault UInt8 :=
  if 0 ≤ i ∧ i ≤ s.length then .ok (s.getD i.toNat 0) else .error .outOfBounds

/-! ## Variables -/

/-- `VariableCommand::runAction` after its sons.  A bound variable is copied.
An unbound one captures `result[3]` bytes of the last frame from `result[2]` on.
A frame without a packet has no bytes at all, not even the four that
`setRawValue` reads for the integer view. -/
def runVariable (P : Platform) (id : Nat) (result : List State) : EnvComp State := do
  let var := (← argument result 1).getStringValue
  if ← checkVariable var then
    let v ← getVariable var
    let value := v.getStringToSend
    let res := (State.valueHexState id).update fun d =>
      { d with name := "Variable: " ++ v.data.name }
    return (res.update (StateData.setRawValue P.uninit value value.length)).push result
  else
    let frame ← getLastFrame
    let start ← integerArgument result 2
    let lenght ← integerArgument result 3
    match frame.data.rawValue with
    | none => Comp.fault .nullPointer
    | some data =>
        if 0 ≤ start ∧ 0 ≤ lenght ∧ start + lenght ≤ data.length then
          let res := (State.valueHexState id).update
            (StateData.setRawValue P.uninit (data.drop start.toNat) lenght.toNat)
          let res ← setVariable var res
          return res.push result
        else Comp.fault .outOfBounds

/-- `result` with its entry `k` replaced by the same state, now bound. -/
def rebind (result : List State) (k : Nat) (s : State) : List State := result.set k s

/-- `MemorizeCommand::runAction` after its sons. -/
def runMemorize (P : Platform) (id : Nat) (result : List State) : EnvComp State := do
  let var := (← argument result 1).getStringValue
  if ← checkVariable var then
    let v ← getVariable var
    let value := v.getStringToSend
    let ret := (State.valueHexState id).update (StateData.setStringValue v.getStringValue)
    return (ret.update (StateData.setRawValue P.uninit value value.length)).push result
  else
    let s ← argument result 2
    let s ← setVariable var s
    let value := s.getStringToSend
    let ret := (State.valueHexState id).update
      (StateData.setRawValue P.uninit value value.length)
    return ret.push (rebind result 2 s)

/-! ## Arithmetic -/

/-- The loop of `AdditionCommand::runAction`. -/
def sumIntegers : Int → List State → Except Fault Int
  | acc, [] => .ok acc
  | acc, s :: ss =>
      match s.getIntegerValue with
      | .error x => .error x
      | .ok i =>
          if intMin ≤ acc + i ∧ acc + i ≤ intMax then sumIntegers (acc + i) ss
          else .error .intOverflow

def runAddition (id : Nat) (result : List State) : EnvComp State := do
  let sum ← ofExcept (sumIntegers 0 result)
  return (State.valueIntState id).update (StateData.setIntegerValue sum)

/-- `ceil(numerator / denominator)` in single precision, back to `int`. -/
def ceilQuotient (n d : Int) : Except Fault Int :=
  let denominator : ℚ := if 0 < d then roundFloat d else 1
  let res := ⌈roundFloat (roundFloat n / denominator)⌉
  if res ≤ intMax then .ok res else .error .intOverflow

def runCeilDivide (id : Nat) (result : List State) : EnvComp State := do
  let n ← integerArgument result 1
  let d ← integerArgument result 2
  let res ← ofExcept (ceilQuotient n d)
  return (State.valueIntState id).update (StateData.setIntegerValue res)

/-- How often the loop `for(int i=0; i<times; i++)` runs for a `float` bound. -/
def repeatTimes (times : Int) : Nat :=
  if 0 < times then
    ((List.range (times.toNat + 1)).find? fun i : Nat =>
      decide (roundFloat times ≤ roundFloat i)).getD 0
  else 0

def runRepeat (id : Nat) (result : List State) : EnvComp State := do
  let blob := (← argument result 1).getStringValue
  let times ← integerArgument result 2
  let s := (List.replicate (repeatTimes times) blob).flatten
  return (State.valueStringState id).update (StateData.setStringValue s)

/-! ## Lengths -/

/-- `LengthCommand::runAction` after its sons.  The length is copied from the
four bytes of an `unsigned int`.  Without a size argument the result stays
empty. -/
def runLength (P : Platform) (id : Nat) (result : List State) : EnvComp State := do
  let ret := State.valueHexState id
  if result.length = 3 then
    let resultSize ← integerArgument result 2
    let value := (← wireArgument result 1).length
    if resultSize < 0 then Comp.fault .badAlloc
    else if 4 < resultSize then Comp.fault .outOfBounds
    else
      let ptr := ((bytesOfInt value).take resultSize.toNat).reverse
      return (ret.update (StateData.setRawValue P.uninit ptr resultSize.toNat)).push result
  else return ret.push result

def runStringLength (id : Nat) (result : List State) : EnvComp State := do
  let ret := State.valueStringState id
  if result.length = 2 then
    let value := (← wireArgument result 1).length % 2 ^ 32
    return (ret.update (StateData.setStringValue (showNat value))).push result
  else return ret.push result

/-! ## Checks -/

/-- The loop of `MaskCheckCommand::runAction` over the first bytes of the frame,
the mask and the value. -/
def maskEqual : Nat → Bytes → Bytes → Bytes → Bool
  | n + 1, f :: frame, m :: mask, v :: value =>
      f &&& m == v &&& m && maskEqual n frame mask value
  | _, _, _, _ => true

def runMaskCheck (id : Nat) (name : Bytes) (result : List State) : EnvComp State := do
  let frame := (← getLastFrame).getStringToSend
  let wires := result.tail.map State.getStringToSend
  let minlenght := (wires.map List.length).foldl min frame.length
  let equal ←
    if 0 < minlenght then do
      let mask ← wireArgument result 1
      let value ← wireArgument result 2
      pure (maskEqual minlenght frame mask value)
    else pure true
  if equal then
    return ((State.okState id).update (StateData.setStringValue name)).push result
  else
    let failret := (State.failState id).update (StateData.setStringValue (ascii "MaskCheck Fail"))
    return failret.setFailValue.push result

/-- `wrmemcmp`: the sum of the differences, as signed characters. -/
def wrmemcmp (first second : Bytes) (start : Int) : Nat → Except Fault Int
  | 0 => .ok 0
  | n + 1 => do
      let disequal ← wrmemcmp first second start n
      let a ← charAt first (start + n)
      let b ← charAt second n
      return disequal + (a ^^^ b).toInt8.toInt

/-- `ValueCheckCommand::runAction` after its sons.  On a difference the bytes
received are attached as well. -/
def runValueCheck (P : Platform) (id : Nat) (name : Bytes) (result : List State) :
    EnvComp State := do
  let lastframe := (← getLastFrame).getStringToSend
  let start := atoi (← wireArgument result 1)
  let size := atoi (← wireArgument result 2)
  let expected ← wireArgument result 3
  let disequal ← ofExcept (wrmemcmp lastframe expected start size.toNat)
  if disequal = 0 then
    return ((State.okState id).update (StateData.setStringValue name)).push result
  else
    let failret :=
      (State.failState id).update (StateData.setStringValue (ascii "ValueCheck Fail"))
    let received := (State.valueHexState id).update
      (StateData.setRawValue P.uninit ((lastframe ++ [0]).drop start.toNat) size.toNat)
    return failret.setFailValue.push (result ++ [received])

/-! ## Digests and Base64 -/

def runMd5 (P : Platform) (id : Nat) (result : List State) : EnvComp State := do
  let digest := P.md5 (result.flatMap State.getStringToSend)
  let res := (State.valueHexState id).push result
  return res.update (StateData.setRawValue P.uninit digest digest.length)

def base64Chars : Bytes :=
  ascii "ABCDEFGHIJKLMNOPQRSTUVWXYZabcdefghijklmnopqrstuvwxyz0123456789+/"

/-- The four characters for three bytes. -/
def base64Quad (a b c : UInt8) : Bytes :=
  [(a &&& 0xfc) >>> 2, ((a &&& 0x03) <<< 4) + ((b &&& 0xf0) >>> 4),
   ((b &&& 0x0f) <<< 2) + ((c &&& 0xc0) >>> 6), c &&& 0x3f].map
    fun i => base64Chars.getD i.toNat 0

/-- `base64_encode`. -/
def base64Encode : Bytes → Bytes
  | a :: b :: c :: s => base64Quad a b c ++ base64Encode s
  | [a, b] => (base64Quad a b 0).take 3 ++ [61]
  | [a] => (base64Quad a 0 0).take 2 ++ [61, 61]
  | [] => []

def runBase64Encode (id : Nat) (result : List State) : EnvComp State := do
  let encoded := base64Encode (result.flatMap State.getStringToSend)
  let res := (State.valueStringState id).push result
  return res.update (StateData.setStringValue (34 :: encoded ++ [34]))

/-- `is_base64`. -/
def isBase64 (c : UInt8) : Bool := isLetter c || isDigit c || c == 43 || c == 47

/-- The three bytes for four positions in `base64_chars`. -/
def base64Triple (a b c d : UInt8) : Bytes :=
  [(a <<< 2) + ((b &&& 0x30) >>> 4), ((b &&& 0xf) <<< 4) + ((c &&& 0x3c) >>> 2),
   ((c &&& 0x3) <<< 6) + d]

/-- The groups of `base64_decode`.  In a short last group the missing
characters are zeros, which `find` does not have. -/
def base64Groups : Bytes → Bytes
  | a :: b :: c :: d :: s => base64Triple a b c d ++ base64Groups s
  | [a, b, c] => (base64Triple a b c 255).take 2
  | [a, b] => (base64Triple a b 255 255).take 1
  | _ => []

/-- `base64_decode`. -/
def base64Decode (s : Bytes) : Bytes :=
  base64Groups ((s.takeWhile isBase64).map fun c => (base64Chars.idxOf c).toUInt8)

def runBase64Decode (P : Platform) (id : Nat) (result : List State) : EnvComp State := do
  let decoded := base64Decode (result.flatMap State.getStringToSend)
  let res := (State.valueHexState id).push result
  return res.update (StateData.setRawValue P.uninit decoded decoded.length)

/-! ## Pauses -/

def runUPause (id : Nat) (result : List State) : EnvComp State := do
  if 1 < result.length then
    let _usec ← integerArgument result 1
    return (State.okState id).push result
  else return (State.okState id).push result

/-! ## Dispatch -/

/-- What a command does with the results of its sons. -/
def Command.finish (P : Platform) (id : Nat) (name : Bytes) (result : List State) :
    Command → EnvComp State
  | .variableCommand => runVariable P id result
  | .additionCommand => runAddition id result
  | .base64DecodeCommand => runBase64Decode P id result
  | .base64EncodeCommand => runBase64Encode id result
  | .md5Command => runMd5 P id result
  | .maskCheckCommand => runMaskCheck id name result
  | .valueCheckCommand => runValueCheck P id name result
  | .uPauseCommand => runUPause id result
  | .lengthCommand => runLength P id result
  | .stringLengthCommand => runStringLength id result
  | .memorizeCommand => runMemorize P id result
  | .repeatCommand => runRepeat id result
  | .ceilDivideCommand => runCeilDivide id result

/-- `VariableCommand::usage` ends the program unless the node has four or two
sons. -/
def Command.usage (numSons : Nat) : Command → EnvComp Unit
  | .variableCommand =>
      if numSons = 4 ∨ numSons = 2 then pure () else Comp.fault .usageExit
  | _ => pure ()

end Stress
