import Stress.Expansion

/-!
# Injected anomalies and the file of the tree

`InjectorPerformer` puts an alternation in the place of a string leaf, with the leaf
as its first alternative and seven anomalies of it behind.  `AnomalyInjector` writes
the tree to a file as a grammar, with a rule for each node that has sons, named by the
name and the id of the node.

A leaf that is an empty string is not replaced, but deleted all the same
(`createFaults` returns the leaf itself), and stays in the tree.  In `Injected` it is one
of the leaves that are kept, and `write` fails where it comes to a deleted node.  Which of
the other string leaves are replaced depends on the actions of the nodes above
(`getDataSons`).  `Injected` allows any choice of them and any numbers of the two counters.

`WrittenGrammar` says when the parser accepts the file, and `InjectedGrammar` which
grammars that happens for.
-/

namespace Stress

/-! ## Texts in names -/

/-- `string::find_first_of` for one character. -/
def findFirstOf (c : UInt8) (s : Bytes) : Option Nat := s.findIdx? (· == c)

/-- `string::find_last_of` for one character. -/
def findLastOf (c : UInt8) (s : Bytes) : Option Nat :=
  (s.reverse.findIdx? (· == c)).map (s.length - 1 - ·)

/-- `trim`: what stands behind the first quote and in front of the last backslash of a
name.  Without a quote nothing is erased in front, without a backslash `erase` throws. -/
def trim (origName : Bytes) : Option Bytes :=
  let origName := origName.drop (((findFirstOf 34 origName).map (· + 1)).getD 0)
  (findLastOf 92 origName).map origName.take

theorem findLastOf_append (c : UInt8) (s : Bytes) {t : Bytes} (ht : c ∉ t) :
    findLastOf c (s ++ c :: t) = some s.length := by
  have hidx : (s ++ c :: t).reverse.findIdx? (· == c) = some t.length := by
    rw [List.reverse_append, List.reverse_cons, List.append_assoc, List.findIdx?_append]
    have hnone : t.reverse.findIdx? (· == c) = none := by
      rw [List.findIdx?_eq_none_iff]
      intro d hd
      rw [beq_eq_false_iff_ne]
      rintro rfl
      exact ht (List.mem_reverse.mp hd)
    rw [hnone, List.singleton_append, List.findIdx?_cons, beq_self_eq_true]
    simp
  rw [findLastOf, hidx, Option.map_some, List.length_append, List.length_cons]
  congr 1
  omega

/-- The text between the quotes. -/
theorem trim_quoted (text : Bytes) : trim ([92, 34] ++ text ++ [92, 34]) = some text := by
  have hfirst : findFirstOf 34 ([92, 34] ++ text ++ [92, 34]) = some 1 := rfl
  rw [trim, hfirst]
  simp only [Option.map_some, Option.getD_some, Nat.reduceAdd]
  have hdrop : ([92, 34] ++ text ++ [92, 34] : Bytes).drop 2 = text ++ 92 :: [34] := rfl
  rw [hdrop, findLastOf_append 92 text (by decide), Option.map_some, List.take_left]

/-! ## Anomalies -/

namespace InjectorPerformer

/-- `addQuote`. -/
def addQuote (s : Bytes) : Bytes := ascii "\\\"" ++ s ++ ascii "\\\""

/-- `cf->getStringNode(addQuote(...))`. -/
def stringNode (s : Bytes) : Tree := .leaf .stringLeaf (addQuote s)

/-- `cf->getHexNode`. -/
def hexNode (s : Bytes) : Tree := .leaf .hexLeaf s

/-- The node of an anomaly, with the name of `generateAnomalyName`. -/
def anomaly (anomalyCounter : Nat) (sons : List Tree) : Tree :=
  .node .composite (ascii "anomaly" ++ showNat anomalyCounter) sons

/-- `ostream << hex << int` of a number below 256. -/
def showHex (n : Nat) : Bytes :=
  if n < 16 then [showHexDigit n] else [showHexDigit (n / 16), showHexDigit (n % 16)]

variable (anomalyCounter : Nat) (rand : Nat → Nat) (origName : Bytes)

def stringInjectionMIDDLETERM (term : Bytes) : Tree :=
  if origName.length = 0 then anomaly anomalyCounter [stringNode origName]
  else
    let insertPoint := if 1 < origName.length then 1 + rand 0 % (origName.length - 1) else 1
    anomaly anomalyCounter
      [stringNode (origName.take insertPoint), hexNode term, stringNode (origName.drop insertPoint)]

/-- The loop of `stringInjectionVERYLONG`.  Each round adds a character at least. -/
def fill (lenght : Nat) : Nat → Bytes → Bytes
  | 0, s => s
  | fuel + 1, s => if s.length < lenght then fill lenght fuel (s ++ origName) else s

def stringInjectionVERYLONG (lenght : Nat) : Tree :=
  anomaly anomalyCounter [stringNode (fill origName lenght lenght origName)]

def stringInjectionNONASCII : Tree :=
  anomaly anomalyCounter [hexNode (ascii "%x" ++
    (List.range origName.length).flatMap fun i => showHex (128 + rand i % 128))]

def stringInjectionRANDOMFUZZ : Tree :=
  anomaly anomalyCounter [hexNode (ascii "%x" ++
    (List.range origName.length).flatMap fun i => showHex (rand i % 128))]

def stringInjectionNULLSTRING : Tree := anomaly anomalyCounter [stringNode []]

/-- `addFaults`, where `rand k` are the numbers drawn for the anomaly `k`. -/
def addFaults (rand : Nat → Nat → Nat) : List Tree :=
  [stringInjectionMIDDLETERM anomalyCounter (rand 0) origName (ascii "%x00"),
   stringInjectionMIDDLETERM (anomalyCounter + 1) (rand 1) origName (ascii "%x0a"),
   stringInjectionMIDDLETERM (anomalyCounter + 2) (rand 2) origName (ascii "%x0d"),
   stringInjectionVERYLONG (anomalyCounter + 3) origName 512,
   stringInjectionNONASCII (anomalyCounter + 4) (rand 4) origName,
   stringInjectionRANDOMFUZZ (anomalyCounter + 5) (rand 5) origName,
   stringInjectionNULLSTRING (anomalyCounter + 6)]

/-- `createFaults` of a leaf with a text that is not empty. -/
def createFaults (orCounter : Nat) (rand : Nat → Nat → Nat) (name : Bytes) : Tree :=
  .node .orComposite (ascii "or" ++ showNat orCounter)
    (.leaf .stringLeaf name :: addFaults anomalyCounter origName rand)

end InjectorPerformer

/-- Some string leaves are replaced by alternations with anomalies. -/
inductive Injected : Tree → Tree → Prop where
  | leaf (kind : LeafKind) (name : Bytes) : Injected (.leaf kind name) (.leaf kind name)
  | faults {name origName : Bytes} (htrim : trim name = some origName) (hne : origName ≠ [])
      (orCounter anomalyCounter : Nat) (rand : Nat → Nat → Nat) :
      Injected (.leaf .stringLeaf name)
        (InjectorPerformer.createFaults anomalyCounter origName orCounter rand name)
  | node {kind : NodeKind} {name : Bytes} {sons sons' : List Tree}
      (h : List.Forall₂ Injected sons sons') :
      Injected (.node kind name sons) (.node kind name sons')

/-! ## The file -/

namespace AnomalyInjector

/-- `addQuote`, without the backslashes. -/
def addQuote (s : Bytes) : Bytes := 34 :: s ++ [34]

def getNodeName4File (name : Bytes) : Option Bytes := (trim name).map addQuote

/-- The left-hand side for a node. -/
def lhs (c : Composite) : Bytes := c.name ++ 45 :: showNat c.id

/-- What is written for a son. -/
def sonText : Composite → Option Bytes
  | .leaf .stringLeaf _ name => getNodeName4File name
  | .leaf _ _ name => some name
  | .node kind id name sons => some (lhs (.node kind id name sons))

/-- The loop over the sons.  The sons of an alternation but the first have a slash. -/
def sonTexts (separator : Bytes) : List Composite → Option Bytes
  | [] => some []
  | c :: cs => do
      let text ← sonText c
      let texts ← sonTexts separator cs
      pure (separator ++ text ++ texts)

def line (c : Composite) : Option Bytes :=
  match c.sons with
  | [] => some [10]
  | d :: ds => do
      let text ← sonText d
      let texts ← sonTexts (if c.isOr then ascii " / " else ascii " ") ds
      pure (lhs c ++ ascii " = " ++ text ++ texts ++ [10])

section

variable (deleted : List Nat)

mutual

/-- `writeInjectedTreeToABNF`, when the nodes with the ids `deleted` have been given back to
the heap. -/
def writeInjectedTreeToABNF : Composite → Option Bytes
  | .leaf kind id name => if id ∈ deleted then none else line (.leaf kind id name)
  | .node kind id name sons =>
      if id ∈ deleted then none
      else do
        let text ← line (.node kind id name sons)
        let texts ← writeSonsToABNF sons
        pure (text ++ texts)

def writeSonsToABNF : List Composite → Option Bytes
  | [] => some []
  | c :: cs => do
      let text ← writeInjectedTreeToABNF c
      let texts ← writeSonsToABNF cs
      pure (text ++ texts)

end

end

/-- The two comments at the top. -/
def title : Bytes := ascii "; ABNF File Auto-Generated by S.T.R.E.S.S. Automatic Injector."

def legend : Bytes :=
  ascii ("; \t The injection points are named \"or\x7bid\x7d\", " ++
    "while the anomalies \"anomaly_\x7bid\x7d_\x7bnodeName\x7d\"")

/-- What `write` puts into the file. -/
def write (deleted : List Nat) (root : Composite) : Option Bytes :=
  (writeInjectedTreeToABNF deleted root).map fun text =>
    title ++ [10] ++ legend ++ [10] ++ [10] ++ text ++ [10]

end AnomalyInjector

end Stress
