import DfsFuzz.Lib.GuardedRun
import DfsFuzz.Symsc.Emulate
import DfsFuzz.Symsc.RoundTrip

/-!
The network faults: the drop rules that `genIptablesDropCmd` makes (`prog/mutation.go`), and what the emulator
keeps of them in `NETSTATE` (`syscalls.py`), against the cuts that the commands make and heal.
-/

namespace DfsFuzz.Symsc

def signed : Str → Bool × Str
  | '-' :: t => (true, t)
  | '+' :: t => (false, t)
  | t => (false, t)

def isDigits (p : Str) : Bool := p != [] && p.all Char.isDigit

/-- `strconv.Atoi` -/
def atoi (s : Str) : Option Int :=
  let (negative, digits) := signed s
  let n : Int := Nat.ofDigitChars 10 digits 0
  let value := if negative then -n else n
  if isDigits digits ∧ -(2 ^ 63) ≤ value ∧ value < 2 ^ 63 then some value else none

def addressText (b0 b1 b2 : Str) (last : Int) : Str := ['.'].intercalate [b0, b1, b2, decimalInt last]

def dropInput (address : Str) : Str := "iptables -A INPUT -s ".toList ++ (address ++ " -j DROP;".toList)

def dropOutput (address : Str) : Str := "iptables -A OUTPUT -d ".toList ++ (address ++ " -j DROP;".toList)

def genIptablesDropCmd (initIp : Str) (nodes : List Int) : Str :=
  match initIp.splitOn '.' with
  | [b0, b1, b2, b3] =>
    match atoi b3 with
    | none => []
    | some lastByte =>
      (nodes.flatMap fun node => dropInput (addressText b0 b1 b2 (lastByte + node))) ++
        nodes.flatMap fun node => dropOutput (addressText b0 b1 b2 (lastByte + node))
  | _ => []

def flushText : Str := "iptables -F;iptables -X;".toList

inductive NetCall where
  | down (node : Nat) (flush : Bool) (targets : List Nat)
  | up (node : Nat)

def NetCall.command (initIp : Str) : NetCall → Str
  | .down _ flush targets => (if flush then flushText else []) ++ genIptablesDropCmd initIp (targets.map Int.ofNat)
  | .up _ => []

/-- The call of the program is the network call, in a state that holds its command. -/
def Issues (cfg : Setup) (s : State) (idx : Nat) (call : NetCall) : Prop :=
  ∃ recorded syscall, cfg.recorded[idx]? = some recorded ∧ cfg.calls[idx]? = some syscall ∧
    match call with
    | .down node _ _ => recorded.procId = node ∧ callKind syscall.name = .failureNetDown ∧
        ∃ token, syscall.args.head? = some token ∧ s.bufData.lookup (stripLong token) = some (call.command cfg.initIp)
    | .up node => recorded.procId = node ∧ callKind syscall.name = .failureNetUp

/-- What a call makes of `NETSTATE`. -/
def emulateNet (initIp : Str) (net : NetState) (call : NetCall) : NetState :=
  match call with
  | .down node _ _ => net ++ cutPairs initIp (call.command initIp) node
  | .up _ => []

/-- The call undoes what the node cut before. -/
def NetCall.Heals (node : Nat) : NetCall → Prop
  | .up other => other = node
  | .down other flush _ => other = node ∧ flush = true

/-- The node has cut the other off, and has not healed since. -/
def Cut (calls : List NetCall) (node target : Nat) : Prop :=
  ∃ before after flush targets, calls = before ++ .down node flush targets :: after ∧ target ∈ targets ∧
    ∀ call ∈ after, ¬ call.Heals node

/-- `NETSTATE` says which nodes are cut off. -/
def NetExact (net : NetState) (calls : List NetCall) : Prop :=
  ∀ node (target : Int), (node, target) ∈ net ↔ ∃ k : Nat, target = k ∧ Cut calls node k

/-- A heal finds no cuts of other nodes, and a flush none of its own node that it does not make again. -/
def ProperNet (net : NetState) : NetCall → Prop
  | .up node => ∀ pair ∈ net, pair.1 = node
  | .down node flush targets => flush = true → ∀ pair ∈ net, pair.1 = node → ∃ target ∈ targets, pair.2 = (target : Int)

/-- An address in dotted form, with a last byte that numbers can be added to. -/
structure DottedIp where
  b0 : Str
  b1 : Str
  b2 : Str
  b3 : Str
  digits : ∀ p ∈ [b0, b1, b2, b3], isDigits p = true
  byte : Nat.ofDigitChars 10 b3 0 ≤ 255

namespace DottedIp

variable (ip : DottedIp)

def text : Str := ['.'].intercalate [ip.b0, ip.b1, ip.b2, ip.b3]

def last : Nat := Nat.ofDigitChars 10 ip.b3 0

end DottedIp

def cutPair (initIp : Str) (node : Nat) (cmd : Str) : Option (Nat × Int) :=
  (addressIn (Py.split [' '] cmd)).bind fun ip => (ipDifference initIp ip).map fun n => (node, (n : Int))

theorem cutPairs_nil (initIp : Str) (node : Nat) : cutPairs initIp [] node = [] := by rfl

theorem cutPairs_cons (initIp : Str) (node : Nat) {cmd : Str} (given : cmd ≠ []) (free : ';' ∉ cmd) (rest : Str) :
    cutPairs initIp (cmd ++ ';' :: rest) node = (cutPair initIp node cmd).toList ++ cutPairs initIp rest node := by
  have pieces : Py.split [';'] (cmd ++ ';' :: rest) = cmd :: Py.split [';'] rest := Py.split_append free rest
  rw [cutPairs, cutPairs, pieces, List.filterMap_cons, if_neg given, ← cutPair]
  cases cutPair initIp node cmd with
  | none => rfl
  | some pair => rfl

theorem cutPairs_flush (initIp : Str) (node : Nat) (rest : Str) :
    cutPairs initIp (flushText ++ rest) node = cutPairs initIp rest node := by
  have text : flushText ++ rest = "iptables -F".toList ++ ';' :: ("iptables -X".toList ++ ';' :: rest) := rfl
  have nothing : cutPair initIp node "iptables -F".toList = none ∧ cutPair initIp node "iptables -X".toList = none := by
    constructor <;> rfl
  rw [text, cutPairs_cons initIp node (by decide) (by decide), cutPairs_cons initIp node (by decide) (by decide), nothing.1, nothing.2]
  rfl

theorem cutPair_rule (initIp : Str) (node : Nat) {chain flag address : Str} (plain : ∀ p ∈ [chain, flag, address], ' ' ∉ p)
    (chainName : chain ≠ "-s".toList ∧ chain ≠ "-d".toList) (isFlag : flag = "-s".toList ∨ flag = "-d".toList) :
    cutPair initIp node ([' '].intercalate ["iptables".toList, "-A".toList, chain, flag, address, "-j".toList, "DROP".toList]) =
      (ipDifference initIp address).map fun n => (node, (n : Int)) := by
  have free : ∀ p ∈ ["iptables".toList, "-A".toList, chain, flag, address, "-j".toList, "DROP".toList], ' ' ∉ p := by
    intro p member
    simp only [List.mem_cons, List.not_mem_nil, or_false] at member plain
    rcases member with rfl | rfl | given | given | given | rfl | rfl
    · decide
    · decide
    · exact plain p (.inl given)
    · exact plain p (.inr (.inl given))
    · exact plain p (.inr (.inr given))
    · decide
    · decide
  have others : ¬ ("iptables".toList = "-s".toList ∨ "iptables".toList = "-d".toList) ∧
      ¬ ("-A".toList = "-s".toList ∨ "-A".toList = "-d".toList) := by decide
  have found : addressIn ["iptables".toList, "-A".toList, chain, flag, address, "-j".toList, "DROP".toList] = some address := by
    rw [addressIn, if_neg others.1, addressIn, if_neg others.2, addressIn, if_neg (not_or.mpr chainName), addressIn, if_pos isFlag]
  rw [cutPair, Py.split_intercalate (by simp) free, found, Option.bind_some]

theorem joined_words {head tail a b c d e f : Str} (address : Str)
    (before : head = a ++ ' ' :: (b ++ ' ' :: (c ++ ' ' :: (d ++ [' '])))) (behind : tail = ' ' :: (e ++ ' ' :: (f ++ [';']))) :
    head ++ (address ++ tail) = [' '].intercalate [a, b, c, d, address, e, f] ++ [';'] := by
  subst before behind
  simp only [List.intercalate_cons_cons, List.intercalate_singleton, List.append_assoc, List.cons_append, List.nil_append]

theorem dropInput_words (address : Str) : dropInput address =
    [' '].intercalate ["iptables".toList, "-A".toList, "INPUT".toList, "-s".toList, address, "-j".toList, "DROP".toList] ++ [';'] :=
  joined_words address (by decide) (by decide)

theorem dropOutput_words (address : Str) : dropOutput address =
    [' '].intercalate ["iptables".toList, "-A".toList, "OUTPUT".toList, "-d".toList, address, "-j".toList, "DROP".toList] ++ [';'] :=
  joined_words address (by decide) (by decide)

/-! ### Addresses -/

theorem isDigits_iff {p : Str} : isDigits p = true ↔ p ≠ [] ∧ p.all Char.isDigit = true := by
  simp [isDigits]

theorem isDigits_decimal (n : Nat) : isDigits (decimal n) = true :=
  isDigits_iff.mpr ⟨decimal_ne_nil n, List.all_eq_true.mpr fun _ member => decimal_isDigit member⟩

theorem not_mem_digits {p : Str} {c : Char} (digits : isDigits p = true) (other : c.isDigit = false) : c ∉ p := by
  intro member
  rw [List.all_eq_true.mp (isDigits_iff.mp digits).2 c member] at other
  cases other

theorem not_mem_dotted {a b c d : Str} {x : Char} (digits : ∀ p ∈ [a, b, c, d], isDigits p = true) (other : x.isDigit = false)
    (notDot : x ≠ '.') : x ∉ ['.'].intercalate [a, b, c, d] := by
  have free : ∀ p ∈ [a, b, c, d], x ∉ p := fun p member => not_mem_digits (digits p member) other
  simp only [List.mem_cons, List.not_mem_nil, or_false, forall_eq_or_imp, forall_eq] at free
  simp [List.intercalate, free, notDot]

theorem ipToInt_dotted {a b c d : Str} (digits : ∀ p ∈ [a, b, c, d], isDigits p = true) :
    ipToInt (['.'].intercalate [a, b, c, d]) =
      some (Nat.ofDigitChars 10 a 0 * 2 ^ 24 + Nat.ofDigitChars 10 b 0 * 2 ^ 16 + Nat.ofDigitChars 10 c 0 * 2 ^ 8 +
        Nat.ofDigitChars 10 d 0) := by
  have free : ∀ p ∈ [a, b, c, d], '.' ∉ p := fun p member => not_mem_digits (digits p member) rfl
  have numbers : ∀ p ∈ [a, b, c, d],
      (if p ≠ [] ∧ p.all Char.isDigit then some (Nat.ofDigitChars 10 p 0) else none) = some (Nat.ofDigitChars 10 p 0) :=
    fun p member => if_pos (isDigits_iff.mp (digits p member))
  rw [ipToInt, Py.split_intercalate (by simp) free, List.map_congr_left numbers]
  rfl

theorem atoi_digits {p : Str} (digits : isDigits p = true) (byte : Nat.ofDigitChars 10 p 0 ≤ 255) :
    atoi p = some (Nat.ofDigitChars 10 p 0 : Int) := by
  have plain : signed p = (false, p) := by
    unfold signed
    split
    · exact absurd List.mem_cons_self (not_mem_digits digits (c := '-') rfl)
    · exact absurd List.mem_cons_self (not_mem_digits digits (c := '+') rfl)
    · rfl
  simp only [atoi, plain, Bool.false_eq_true, if_false]
  exact if_pos ⟨digits, by omega, by omega⟩

namespace DottedIp

variable {ip : DottedIp}

def address (ip : DottedIp) (target : Nat) : Str := ['.'].intercalate [ip.b0, ip.b1, ip.b2, decimal (ip.last + target)]

theorem address_digits (target : Nat) : ∀ p ∈ [ip.b0, ip.b1, ip.b2, decimal (ip.last + target)], isDigits p = true := by
  have digits := ip.digits
  simp only [List.mem_cons, List.not_mem_nil, or_false, forall_eq_or_imp, forall_eq] at digits ⊢
  exact ⟨digits.1, digits.2.1, digits.2.2.1, isDigits_decimal _⟩

theorem ipDifference_address (target : Nat) : ipDifference ip.text (ip.address target) = some target := by
  have number : Nat.ofDigitChars 10 (decimal (ip.last + target)) 0 = ip.last + target := Nat.ofDigitChars_ten_toDigits
  rw [ipDifference, text, ipToInt_dotted ip.digits, address, ipToInt_dotted (address_digits target), number, last]
  dsimp only
  rw [if_neg (by omega)]
  congr 1
  omega

theorem genIptablesDropCmd_eq (targets : List Nat) :
    genIptablesDropCmd ip.text (targets.map Int.ofNat) =
      (targets.flatMap fun target => dropInput (ip.address target)) ++ targets.flatMap fun target => dropOutput (ip.address target) := by
  have free : ∀ p ∈ [ip.b0, ip.b1, ip.b2, ip.b3], '.' ∉ p := fun p member => not_mem_digits (ip.digits p member) rfl
  have pieces : ip.text.splitOn '.' = [ip.b0, ip.b1, ip.b2, ip.b3] := List.splitOn_intercalate '.' free (by simp)
  have number : ∀ target : Nat,
      addressText ip.b0 ip.b1 ip.b2 ((Nat.ofDigitChars 10 ip.b3 0 : Int) + Int.ofNat target) = ip.address target := by
    intro target
    rw [addressText, address, decimalInt, if_neg (by simp only [Int.ofNat_eq_natCast]; omega)]
    rfl
  rw [genIptablesDropCmd, pieces]
  dsimp only
  rw [atoi_digits (ip.digits ip.b3 (by simp)) ip.byte]
  simp only [List.flatMap_map, number]

theorem address_plain (target : Nat) {x : Char} (other : x.isDigit = false) (notDot : x ≠ '.') : x ∉ ip.address target :=
  not_mem_dotted (address_digits target) other notDot

theorem cutPairs_rule (node target : Nat) {chain flag : Str} (plain : ∀ p ∈ [chain, flag], ' ' ∉ p ∧ ';' ∉ p)
    (chainName : chain ≠ "-s".toList ∧ chain ≠ "-d".toList) (isFlag : flag = "-s".toList ∨ flag = "-d".toList) (rest : Str) :
    cutPairs ip.text ([' '].intercalate
      ["iptables".toList, "-A".toList, chain, flag, ip.address target, "-j".toList, "DROP".toList] ++ ';' :: rest) node =
      (node, (target : Int)) :: cutPairs ip.text rest node := by
  simp only [List.mem_cons, List.not_mem_nil, or_false, forall_eq_or_imp, forall_eq] at plain
  have blanks : ∀ p ∈ [chain, flag, ip.address target], ' ' ∉ p := by
    simp only [List.mem_cons, List.not_mem_nil, or_false, forall_eq_or_imp, forall_eq]
    exact ⟨plain.1.1, plain.2.1, address_plain target rfl (by decide)⟩
  have semicolon : ';' ∉ [' '].intercalate
      ["iptables".toList, "-A".toList, chain, flag, ip.address target, "-j".toList, "DROP".toList] := by
    have address := ip.address_plain target (x := ';') rfl (by decide)
    simp [List.intercalate, plain, address]
  rw [cutPairs_cons _ _ (by simp [List.intercalate]) semicolon, cutPair_rule _ _ blanks chainName isFlag, ipDifference_address]
  rfl

theorem cutPairs_dropInput (node : Nat) (targets : List Nat) (rest : Str) :
    cutPairs ip.text ((targets.flatMap fun target => dropInput (ip.address target)) ++ rest) node =
      (targets.map fun target : Nat => (node, (target : Int))) ++ cutPairs ip.text rest node := by
  induction targets with
  | nil => rfl
  | cons target targets ih =>
    rw [List.flatMap_cons, dropInput_words, List.append_assoc, List.append_assoc, List.singleton_append,
      cutPairs_rule node target (by decide) (by decide) (.inl rfl), ih, List.map_cons, List.cons_append]

theorem cutPairs_dropOutput (node : Nat) (targets : List Nat) (rest : Str) :
    cutPairs ip.text ((targets.flatMap fun target => dropOutput (ip.address target)) ++ rest) node =
      (targets.map fun target : Nat => (node, (target : Int))) ++ cutPairs ip.text rest node := by
  induction targets with
  | nil => rfl
  | cons target targets ih =>
    rw [List.flatMap_cons, dropOutput_words, List.append_assoc, List.append_assoc, List.singleton_append,
      cutPairs_rule node target (by decide) (by decide) (.inr rfl), ih, List.map_cons, List.cons_append]

/-- A command adds the pairs of its targets, each twice, with a flush or without. -/
theorem cutPairs_command (node : Nat) (flush : Bool) (targets : List Nat) :
    cutPairs ip.text (NetCall.command ip.text (.down node flush targets)) node =
      (targets.map fun target : Nat => (node, (target : Int))) ++ targets.map fun target : Nat => (node, (target : Int)) := by
  have rules : cutPairs ip.text (genIptablesDropCmd ip.text (targets.map Int.ofNat)) node =
      (targets.map fun target : Nat => (node, (target : Int))) ++ targets.map fun target : Nat => (node, (target : Int)) := by
    rw [genIptablesDropCmd_eq, cutPairs_dropInput]
    have second : cutPairs ip.text ((targets.flatMap fun target => dropOutput (ip.address target)) ++ []) node = _ :=
      cutPairs_dropOutput node targets []
    rw [List.append_nil, cutPairs_nil, List.append_nil] at second
    rw [second]
  cases flush with
  | false => exact rules
  | true => exact (cutPairs_flush _ _ _).trans rules

theorem mem_emulateNet_down {net : NetState} {node : Nat} {flush : Bool} {targets : List Nat} {pair : Nat × Int} :
    pair ∈ emulateNet ip.text net (.down node flush targets) ↔ pair ∈ net ∨ ∃ target ∈ targets, (node, (target : Int)) = pair := by
  rw [emulateNet, cutPairs_command, List.mem_append, List.mem_append, or_self, List.mem_map]

end DottedIp

theorem not_cut_nil (node target : Nat) : ¬ Cut [] node target := by
  rintro ⟨before, after, flush, targets, split, -⟩
  exact List.append_ne_nil_of_right_ne_nil _ (List.cons_ne_nil _ _) split.symm

theorem cut_concat {calls : List NetCall} {call : NetCall} {node target : Nat} :
    Cut (calls ++ [call]) node target ↔
      (∃ flush targets, call = .down node flush targets ∧ target ∈ targets) ∨ Cut calls node target ∧ ¬ call.Heals node := by
  constructor
  · rintro ⟨before, after, flush, targets, split, member, kept⟩
    rcases List.eq_nil_or_concat after with rfl | ⟨after, last, rfl⟩
    · obtain ⟨-, same⟩ := List.append_inj' split rfl
      exact .inl ⟨flush, targets, List.singleton_inj.mp same, member⟩
    · rw [List.concat_eq_append, ← List.cons_append, ← List.append_assoc] at split
      rw [List.concat_eq_append] at kept
      obtain ⟨calls_eq, same⟩ := List.append_inj' split rfl
      obtain rfl := List.singleton_inj.mp same
      exact .inr ⟨⟨before, after, flush, targets, calls_eq, member, fun c inside => kept c (List.mem_append_left _ inside)⟩,
        kept call (List.mem_append_right _ List.mem_cons_self)⟩
  · rintro (⟨flush, targets, rfl, member⟩ | ⟨⟨before, after, flush, targets, rfl, member, kept⟩, stays⟩)
    · exact ⟨calls, [], flush, targets, rfl, member, fun c inside => by cases inside⟩
    · refine ⟨before, after ++ [call], flush, targets, by rw [List.append_assoc, List.cons_append], member, fun c inside => ?_⟩
      rcases List.mem_append.mp inside with old | new
      · exact kept c old
      · rw [List.mem_singleton.mp new]
        exact stays

/-- A call keeps `NETSTATE` exact if and only if it is proper. -/
theorem netExact_step (ip : DottedIp) {net : NetState} {calls : List NetCall} (exact_ : NetExact net calls) (call : NetCall) :
    NetExact (emulateNet ip.text net call) (calls ++ [call]) ↔ ProperNet net call := by
  cases call with
  | up node =>
    constructor
    · intro after pair member
      by_contra other
      obtain ⟨k, number, cut⟩ := (exact_ pair.1 pair.2).mp member
      have still : Cut (calls ++ [.up node]) pair.1 k := cut_concat.mpr (.inr ⟨cut, fun same => other same.symm⟩)
      have here := (after pair.1 k).mpr ⟨k, rfl, still⟩
      cases here
    · intro proper n target
      refine iff_of_false (by rw [emulateNet]; exact List.not_mem_nil) ?_
      rintro ⟨k, rfl, cut⟩
      rcases cut_concat.mp cut with ⟨flush, targets, same, -⟩ | ⟨before, stays⟩
      · cases same
      · exact stays (proper _ ((exact_ n k).mpr ⟨k, rfl, before⟩)).symm
  | down node flush targets =>
    constructor
    · intro after flushes pair member same
      subst flushes
      obtain ⟨k, number, cut⟩ := (after pair.1 pair.2).mp (DottedIp.mem_emulateNet_down.mpr (.inl member))
      rcases cut_concat.mp cut with ⟨_, _, call, inside⟩ | ⟨-, stays⟩
      · cases call
        exact ⟨k, inside, number⟩
      · exact absurd ⟨same.symm, rfl⟩ stays
    · intro proper n target
      rw [DottedIp.mem_emulateNet_down]
      constructor
      · rintro (old | ⟨k, inside, same⟩)
        · obtain ⟨k, rfl, cut⟩ := (exact_ n target).mp old
          by_cases heals : (NetCall.down node flush targets).Heals n
          · obtain ⟨rfl, flushes⟩ := heals
            obtain ⟨t, inside, number⟩ := proper flushes _ old rfl
            exact ⟨t, number, cut_concat.mpr (.inl ⟨flush, targets, rfl, inside⟩)⟩
          · exact ⟨k, rfl, cut_concat.mpr (.inr ⟨cut, heals⟩)⟩
        · cases same
          exact ⟨k, rfl, cut_concat.mpr (.inl ⟨flush, targets, rfl, inside⟩)⟩
      · rintro ⟨k, rfl, cut⟩
        rcases cut_concat.mp cut with ⟨_, _, call, inside⟩ | ⟨before, -⟩
        · cases call
          exact .inr ⟨k, inside, rfl⟩
        · exact .inl ((exact_ n k).mpr ⟨k, rfl, before⟩)

theorem netExact_nil : NetExact [] [] := by
  intro node target
  refine iff_of_false List.not_mem_nil ?_
  rintro ⟨k, -, cut⟩
  exact not_cut_nil node k cut

theorem emulate_issues {cfg : Setup} {s : State} {idx : Nat} {call : NetCall} (faults : cfg.fstype ≠ .other)
    (issues : Issues cfg s idx call) (g : Globals) :
    emulate cfg g s idx = some (.none, s, { g with netState := emulateNet cfg.initIp g.netState call }) := by
  obtain ⟨recorded, syscall, record, program, given⟩ := issues
  rw [emulate, record, program]
  cases call with
  | down node flush targets =>
    obtain ⟨rfl, kind, token, first, text⟩ := given
    simp only [bind, Option.bind_some, kind, isFailure, runFailure, first, text, faults]
    rfl
  | up node =>
    obtain ⟨rfl, kind⟩ := given
    simp only [bind, Option.bind_some, kind, isFailure, runFailure, faults]
    rfl

theorem runCalls_issues {cfg : Setup} {s : State} {idxs : List Nat} {calls : List NetCall} (faults : cfg.fstype ≠ .other)
    (issued : List.Forall₂ (Issues cfg s) idxs calls) (g : Globals) :
    runCalls cfg idxs (s, g) = some (s, { g with netState := GuardedRun.run (emulateNet cfg.initIp) g.netState calls }) := by
  induction issued generalizing g with
  | nil => rfl
  | @cons idx call idxs calls issues _ ih =>
    rw [runCalls, emulate_issues faults issues g, Option.bind_some, ih]
    rfl

/-- In every run of network faults `NETSTATE` is exact in every state if and only if every call is proper. -/
theorem netState_exact_iff (ip : DottedIp) {cfg : Setup} (s : State) {idxs : List Nat} {calls : List NetCall}
    (faults : cfg.fstype ≠ .other) (address : cfg.initIp = ip.text) (issued : List.Forall₂ (Issues cfg s) idxs calls) :
    (∀ k, ∃ g, runCalls cfg (idxs.take k) (s, {}) = some (s, g) ∧ NetExact g.netState (calls.take k)) ↔
      GuardedRun.Each (emulateNet ip.text) ProperNet [] calls := by
  have run : ∀ k, runCalls cfg (idxs.take k) (s, {}) =
      some (s, { netState := GuardedRun.run (emulateNet ip.text) [] (calls.take k) }) := by
    intro k
    rw [runCalls_issues faults (List.forall₂_take k issued) {}, address]
  rw [GuardedRun.each_iff_invariant NetExact (fun net done call exact_ => netExact_step ip exact_ call) netExact_nil]
  refine forall_congr' fun k => ?_
  rw [run k, List.nil_append]
  constructor
  · rintro ⟨g, same, exact_⟩
    cases same
    exact exact_
  · intro exact_
    exact ⟨_, rfl, exact_⟩

def testIp : DottedIp where
  b0 := "192".toList
  b1 := "168".toList
  b2 := "0".toList
  b3 := "1".toList
  digits := by decide
  byte := by decide

/-- Node 0 cuts off node 1, and a node brings the network up. -/
def faultSetup (healer : Nat) : Setup :=
  { plainSetup {} with
    initIp := testIp.text
    calls := [callOf "SYS_syz_failure_net_down" ["v1"] "", callOf "SYS_syz_failure_net_up" [] ""]
    recorded := [{ procId := 0 }, { procId := healer }] }

def cutCall : NetCall := .down 0 true [1]

def faultState : State :=
  { initState {} 2 with bufData := (∅ : Go.Map Str Str).insert "v1".toList (cutCall.command testIp.text) }

theorem faultSetup_issues (healer : Nat) : List.Forall₂ (Issues (faultSetup healer) faultState) [0, 1] [cutCall, .up healer] := by
  have plain : stripLong "v1".toList = "v1".toList := by decide
  have held : faultState.bufData.lookup (stripLong "v1".toList) = some (cutCall.command testIp.text) := by
    rw [plain]
    exact AList.lookup_insert _
  refine .cons ⟨_, _, rfl, rfl, rfl, by decide, "v1".toList, rfl, held⟩ (.cons ⟨_, _, rfl, rfl, rfl, by decide⟩ .nil)

theorem emulateNet_cutCall : emulateNet testIp.text [] cutCall = [(0, 1), (0, 1)] := by
  rw [cutCall, emulateNet, DottedIp.cutPairs_command]
  rfl

theorem netState_exact_healed : ∃ g, runCalls (faultSetup 0) [0, 1] (faultState, {}) = some (faultState, g) ∧
    NetExact g.netState [cutCall, .up 0] := by
  refine (netState_exact_iff testIp faultState (by decide) rfl (faultSetup_issues 0)).mpr ⟨?_, ?_, trivial⟩ 2
  · intro _ pair member
    cases member
  · rw [emulateNet_cutCall]
    intro pair member
    simp only [List.mem_cons, List.not_mem_nil, or_false, or_self] at member
    rw [member]

/-- A node that brings its own network up heals the cut of another. -/
theorem up_heals_other :
    ¬ ∀ (ip : DottedIp) (cfg : Setup) (s : State) (idxs : List Nat) (calls : List NetCall), cfg.fstype ≠ .other →
      cfg.initIp = ip.text → List.Forall₂ (Issues cfg s) idxs calls →
      ∀ k, ∃ g, runCalls cfg (idxs.take k) (s, {}) = some (s, g) ∧ NetExact g.netState (calls.take k) := by
  intro always
  obtain ⟨g, run, exact_⟩ := always testIp (faultSetup 2) faultState _ _ (by decide) rfl (faultSetup_issues 2) 2
  have computed := runCalls_issues (by decide) (faultSetup_issues 2) {}
  cases run.symm.trans computed
  have cut : Cut [cutCall, .up 2] 0 1 := ⟨[], [.up 2], true, [1], rfl, by decide, by
    intro call member
    rw [List.mem_singleton.mp member]
    exact (by decide : ¬ 2 = 0)⟩
  have here := (exact_ 0 1).mpr ⟨1, rfl, cut⟩
  cases here

end DfsFuzz.Symsc
