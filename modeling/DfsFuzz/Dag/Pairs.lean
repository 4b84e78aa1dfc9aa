import DfsFuzz.Dag.Vertex
import DfsFuzz.Lib.Enumerate
import DfsFuzz.Lib.SliceSort

/-! `ExtractPairs` and `ComputeFeedback` (`prog/dag.go`). -/

namespace DfsFuzz.Dag

abbrev Hist := List Nat

def bump (hist : Hist) (i : Nat) : Hist := hist.modify i (· + 1)

structure DagDiag where
  -- BuildVertices
  events : Nat := 0
  matchFailed : Nat := 0
  progIdxBad : Nat := 0
  pathEmpty : Nat := 0
  perNodeVertices : Hist := []
  perFuncVertices : Hist := List.replicate 16 0
  matchFailFunc : Hist := List.replicate 16 0
  matchFailRetOK : Hist := List.replicate 16 0
  matchFailNoFunc : Nat := 0
  matchFailNoCI : Nat := 0
  matchFailTime : Nat := 0
  matchFailByNode : Hist := []
  mfTimeLate : Nat := 0
  mfTimeEarly : Nat := 0
  mfGap : Nat := 0
  mfShift : Nat := 0
  mfSamples : List String := []
  matchDistIn : Hist := List.replicate 7 0
  matchDistOut : Hist := List.replicate 7 0
  -- ExtractPairs
  totalPairs : Nat := 0
  overlapPairs : Nat := 0
  hbForwardPairs : Nat := 0
  hbReversePairs : Nat := 0
  filteredNoMod : Nat := 0
  filteredPathRel : Nat := 0
  hbPairs : Nat := 0
  ccPairs : Nat := 0
  -- ComputeFeedback
  pairBitsUnique : Nat := 0
  -- feature marginals
  retHist : RetBucket → Nat := fun _ => 0
  errHist : Hist := List.replicate 64 0
  depthHist : Hist := List.replicate 4 0
  offHist : Hist := List.replicate 5 0
  persistHist : Hist := List.replicate 2 0
  typeHist : Hist := List.replicate 2 0
  retByFunc : UInt32 → RetBucket → Nat := fun _ _ => 0
  pairRetCombos : RetBucket → RetBucket → Nat := fun _ _ => 0

/-- `&vertices[i]` for every index. -/
def refs (vertices : List DAGVertex) : List VertexRef := vertices.mapIdx fun i v => ⟨i, v⟩

def overlap (A B : DAGVertex) : Bool := A.stime ≤ B.etime && B.stime ≤ A.etime

structure PairState where
  diag : DagDiag
  hb : List DAGPair := []
  cc : List DAGPair := []

/-- The body of the double loop of `ExtractPairs`. -/
def pairStep (st : PairState) (p : VertexRef × VertexRef) : PairState :=
  let A := p.1
  let B := p.2
  let aMod := isSucceededModifier A.v
  let bMod := isSucceededModifier B.v
  if overlap A.v B.v then
    let diag := { st.diag with overlapPairs := st.diag.overlapPairs + 1 }
    let rel := determinePathRel A.v B.v false
    if rel ≠ .none && (isModifierFunc A.v.funcID || isModifierFunc B.v.funcID) then
      { st with diag, cc := st.cc ++ [{ A, B, temporal := .concurrent, pathRel := rel }] }
    else if rel = .none then { st with diag := { diag with filteredPathRel := diag.filteredPathRel + 1 } }
    else { st with diag := { diag with filteredNoMod := diag.filteredNoMod + 1 } }
  else if A.v.etime < B.v.stime then
    let diag := { st.diag with hbForwardPairs := st.diag.hbForwardPairs + 1 }
    let rel := determinePathRel A.v B.v true
    if rel ≠ .none && aMod then
      { st with diag, hb := st.hb ++ [{ A, B, temporal := .hb, pathRel := rel }] }
    else if rel = .none then { st with diag := { diag with filteredPathRel := diag.filteredPathRel + 1 } }
    else { st with diag := { diag with filteredNoMod := diag.filteredNoMod + 1 } }
  else
    let diag := { st.diag with hbReversePairs := st.diag.hbReversePairs + 1 }
    let rel := determinePathRel B.v A.v true
    if rel ≠ .none && bMod then
      { st with diag, hb := st.hb ++ [{ A := B, B := A, temporal := .hb, pathRel := rel }] }
    else if rel = .none then { st with diag := { diag with filteredPathRel := diag.filteredPathRel + 1 } }
    else { st with diag := { diag with filteredNoMod := diag.filteredNoMod + 1 } }

def countCombo (combos : RetBucket → RetBucket → Nat) (p : DAGPair) : RetBucket → RetBucket → Nat :=
  fun a b => if a = p.A.v.retBucket ∧ b = p.B.v.retBucket then combos a b + 1 else combos a b

structure ExtractResult where
  hbPairs : List DAGPair
  ccPairs : List DAGPair
  diag : DagDiag

def extractPairs (vertices : List DAGVertex) (diag : DagDiag) : ExtractResult :=
  let n := vertices.length
  let st := (Go.pairs (refs vertices)).foldl pairStep { diag := { diag with totalPairs := n * (n - 1) / 2 } }
  let combos := (st.hb ++ st.cc).foldl countCombo st.diag.pairRetCombos
  { hbPairs := st.hb
    ccPairs := st.cc
    diag := { st.diag with hbPairs := st.hb.length, ccPairs := st.cc.length, pairRetCombos := combos } }

def isOffsetFunc (fid : UInt32) : Bool := fid = funcWrite || fid = funcRead || fid = funcSetattr

def offsetBucketNA : UInt64 := 0
def offsetBucketZero : UInt64 := 1
def offsetBucketMid : UInt64 := 2
def offsetBucketTail : UInt64 := 3
def offsetBucketBeyond : UInt64 := 4

def writebackBlocksize : UInt64 := 4096

def offsetBucketOf (v : DAGVertex) : UInt64 :=
  if !isOffsetFunc v.funcID then offsetBucketNA
  else if v.off = 0 then offsetBucketZero
  else if v.off ≥ v.size then offsetBucketBeyond
  else
    let r := v.size % writebackBlocksize
    if r > 0 && v.off ≥ v.size - r then offsetBucketTail else offsetBucketMid

def depthBucketOf (path : String) : UInt64 :=
  let n := Go.count path '/'
  if n = 0 then 0 else if n = 1 then 1 else if n ≤ 4 then 2 else 3

def inPersistence (path : String) (hmcfg : FeedbackConfig) : Bool :=
  hmcfg.persistenceDir ≠ "" && Go.hasPrefix path hmcfg.persistenceDir

/-- funcID(5b) | ret(3b) | depth(2b) | nodeType(1b) | persist(1b) | offset(3b) -/
def featuresOf (v : DAGVertex) (hmcfg : FeedbackConfig) : UInt64 :=
  let depth := depthBucketOf v.path
  let nt : UInt64 := if v.isDir then 1 else 0
  let persist : UInt64 := if inPersistence v.path hmcfg then 1 else 0
  v.funcID.toUInt64 ||| (UInt64.ofNat v.retBucket.toNat <<< 5) ||| (depth <<< 8) ||| (nt <<< 10) |||
    (persist <<< 11) ||| (offsetBucketOf v <<< 12)

def fnv1a64 : UInt64 := 0xcbf29ce484222325

def fnvAdd64 (h v : UInt64) : UInt64 :=
  (List.range 8).foldl (fun h i => (h ^^^ ((v >>> UInt64.ofNat (8 * i)) &&& 0xff)) * 0x100000001b3) h

def hashVertices (temporal : TemporalRel) (rel : PathRel) (a b : DAGVertex) (hmcfg : FeedbackConfig) : UInt64 :=
  let h := fnvAdd64 fnv1a64 (UInt64.ofNat temporal.toNat)
  let h := fnvAdd64 h (UInt64.ofNat rel.toNat)
  let h := fnvAdd64 h (featuresOf a hmcfg)
  fnvAdd64 h (featuresOf b hmcfg)

def hashPair (p : DAGPair) (hmcfg : FeedbackConfig) : UInt64 :=
  hashVertices p.temporal p.pathRel p.A.v p.B.v hmcfg

/-- Changes of value along a list: `i == 0 || hashes[i] != hashes[i-1]`. -/
def countUnique : List UInt64 → Nat
  | [] => 0
  | [_] => 1
  | a :: b :: rest => (if a = b then 0 else 1) + countUnique (b :: rest)

structure Feedback where
  pairBits : List UInt32
  schedBit : UInt32

def hashLess (a b : UInt64) : Bool := Go.lessBy UInt64.toNat a b

def scheduleHash (hashes : List UInt64) : UInt32 := (hashes.foldl fnvAdd64 fnv1a64).toUInt32

def computeFeedback (srt : Go.SliceSort) (hbPairs ccPairs : List DAGPair) (hmcfg : FeedbackConfig)
    (diag : DagDiag) : Feedback × DagDiag :=
  let all := hbPairs ++ ccPairs
  let hashes := all.map fun p => hashPair p hmcfg
  let pairBits := hashes.map UInt64.toUInt32
  let hashes := srt.sort hashLess hashes
  ({ pairBits, schedBit := scheduleHash hashes }, { diag with pairBitsUnique := countUnique hashes })

end DfsFuzz.Dag
