/-
# `EvmTrans.WordBoundary` — storage keys and values, log topics and hashes as thirty-two bytes.

`SSTORE` widens and swaps both operands and is right for every register. Its neighbours each leave a
step out: `SLOAD` does not widen its key, `LOG` neither widens nor swaps a topic, `BLOCKHASH`
compares a number of any width with a 256-bit limit, and `EXTCODEHASH` has the host write thirty-two
bytes into an `i32`. `word_boundary_iff` says for each of them exactly when the word arrives.
-/
import Mathlib.Data.List.Pairwise
import EvmTrans.AddressBoundary

namespace EvmTrans

open Lib (leBytes beBytes ofLE ofBE read write Apart InRange length_leBytes length_beBytes
  length_read read_write_self read_write_apart read_add write_of_not_inRange write_add)

/-! ## §1 — the emitted code. -/

/-- Two `i256` slots: `AddressPtr` and `ValPtr` of `SLOAD` and `SSTORE`. -/
structure WordFrame (m : LinMem) where
  slotPtr : Nat
  valPtr : Nat
  slot_slot : Slot m slotPtr 32
  val_slot : Slot m valPtr 32
  apart : Apart valPtr 32 slotPtr 32

/-- The storage of the executing contract, as the host keeps it. -/
abbrev Storage := Bytes32 → Bytes32

/-- `SLOAD` with `eeiStorageLoad`: the path that the host looks up, and the word pushed. -/
def emitSload (isConst : Bool) (m : LinMem) (fr : WordFrame m) (storage : Storage) (index : Reg) :
    Option (Bytes32 × Word) := do
  let m ← createStoreMem 256 m fr.slotPtr (emitEndianConvert isConst index.val)
  let path ← loadBytes32 m fr.slotPtr
  let m ← storeBytes32 (storage path) fr.valPtr m
  let value ← createLoadMem 256 m fr.valPtr
  return (path, emitEndianConvert false value)

/-- `SSTORE` with `eeiStorageStore`: the path and the value that the host stores. -/
def emitSstore (indexConst valueConst : Bool) (m : LinMem) (fr : WordFrame m) (index value : Reg) :
    Option (Bytes32 × Bytes32) := do
  let m ← createStoreMem 256 m fr.slotPtr (emitEndianConvert indexConst index.zext.val)
  let m ← createStoreMem 256 m fr.valPtr (emitEndianConvert valueConst value.zext.val)
  let path ← loadBytes32 m fr.slotPtr
  let value ← loadBytes32 m fr.valPtr
  return (path, value)

/-- The bytes of a register in memory. -/
def Reg.bytes (r : Reg) : List Byte := leBytes (r.width.bits / 8) r.val.toNat

/-- The loop over the topics of `LOG1` to `LOG4`: an `alloca` of the topic's own type, and a
store. -/
def storeTopics : LinMem → List (Nat × StackReg) → Option LinMem
  | m, [] => some m
  | m, (adr, topic) :: topics => do
    let m ← createStoreMem topic.width.bits m adr topic.val
    storeTopics m topics

/-- The topics that `eeiLog` loads. -/
def emitLog (m : LinMem) (topics : List (Nat × StackReg)) : Option (List Bytes32) := do
  let m ← storeTopics m topics
  topics.mapM fun t => loadBytes32 m t.1

/-- `eeiGetBlockHash`: nothing is written for a hash that the host does not have. -/
def eeiGetBlockHash (getBlockHash : BitVec 64 → Bytes32) (number : BitVec 64) (resultOffset : Nat)
    (m : LinMem) : Option LinMem :=
  if getBlockHash number = Bytes32.of 0 then some m
  else storeBytes32 (getBlockHash number) resultOffset m

/-- `BLOCKHASH`. The comparison is with the limit extended to `i256`. -/
def emitBlockhash (m : LinMem) (p : Nat) (getBlockHash : BitVec 64 → Bytes32) (number : Reg) :
    Option Word := do
  let isBigNumber ← createICmp (fun number limit => limit.ult number) number ⟨.i256,
    BitVec.ofNat 256 (2 ^ 63 - 1)⟩
  let number ← truncOrBitCast 64 number
  let m ← eeiGetBlockHash getBlockHash number p m
  let loaded ← createLoadMem 256 m p
  return emitEndianConvert false (if isBigNumber.denote = 1 then 0 else loaded)

/-- `EXTCODEHASH` with a host that writes its hash at `resultPtr`, where an `i32` was allocated: the
hash written, and the register pushed. The host module of hera exports no `getExternalCodeHash`:
that the host reads the address like the others and writes thirty-two bytes is the convention
assumed here. -/
def emitExtcodehashResult (isConst : Bool) (m : LinMem) (p resultPtr : Nat)
    (codeHash : Address → Bytes32) (address : Reg) : Option (Bytes32 × Reg) := do
  let m ← storeOperand false isConst m p address
  let a ← loadAddress m p
  let m ← storeBytes32 (codeHash a) resultPtr m
  let value ← createLoadMem 32 m resultPtr
  return (codeHash a, ⟨.i32, value⟩)

/-! ## §2 — thirty-two bytes and a word. -/

/-- The word whose big-endian bytes these are. -/
def Bytes32.toWord (b : Bytes32) : Word := BitVec.ofNat 256 (ofBE b.bytes)

theorem Bytes32.toWord_of (w : Word) : (Bytes32.of w).toWord = w := by
  apply BitVec.eq_of_toNat_eq
  rw [Bytes32.toWord, BitVec.toNat_ofNat, Bytes32.of, FixedBytes.ofNat, Lib.ofBE_beBytes,
    two_pow_word, Nat.mod_eq_of_lt w.isLt, Nat.mod_eq_of_lt w.isLt]

theorem Bytes32.of_inj {v w : Word} : Bytes32.of v = Bytes32.of w ↔ v = w :=
  ofNat_bytes_inj ⟨32, rfl⟩

/-- A swapped word in a slot is what the host reads as the word. -/
theorem loadBytes32_write {m : LinMem} {p : Nat} (hp : Slot m p 32) (b : Bytes32) :
    loadBytes32 { m with bytes := write m.bytes p b.bytes } p = some b := by
  rw [loadBytes32, loadFixed_of_slot (hp.write _)]
  congr 1
  apply FixedBytes.ext
  have hread := read_write_self m.bytes p b.bytes
  rwa [b.length_eq] at hread

theorem loadBytes32_write_apart {m : LinMem} {p q : Nat} (hp : Slot m p 32) (bs : List Byte)
    (h : Apart q bs.length p 32) :
    loadBytes32 { m with bytes := write m.bytes q bs } p = loadBytes32 m p := by
  rw [loadBytes32, loadFixed_of_slot (hp.write _), loadFixed_of_slot hp]
  congr 1
  apply FixedBytes.ext
  exact read_write_apart h

theorem createStoreMem_swapped {m : LinMem} {p : Nat} (hp : Slot m p 32) (isConst : Bool)
    (v : Word) :
    createStoreMem 256 m p (emitEndianConvert isConst v) =
      some { m with bytes := write m.bytes p (Bytes32.of v).bytes } := by
  have hbytes : leBytes (256 / 8) (byteSwap v).toNat = (Bytes32.of v).bytes :=
    leBytes_byteSwap v ⟨32, rfl⟩
  rw [emitEndianConvert_eq isConst v ⟨32, rfl⟩ (by decide), createStoreMem_of_slot _ hp, hbytes]

/-- The word pushed when the host wrote `b` into the slot. -/
theorem createLoadMem_write {m : LinMem} {p : Nat} (hp : Slot m p 32) (b : Bytes32) :
    (createLoadMem 256 { m with bytes := write m.bytes p b.bytes } p).map
      (emitEndianConvert false) = some b.toWord := by
  have hread := read_write_self m.bytes p b.bytes
  rw [b.length_eq] at hread
  have hload : createLoadMem 256 { m with bytes := write m.bytes p b.bytes } p =
      some (BitVec.ofNat 256 (ofLE (read (write m.bytes p b.bytes) p 32))) :=
    createLoadMem_of_slot (hp.write _)
  have hlt := Lib.ofLE_lt b.bytes
  have hle := Lib.leBytes_ofLE b.bytes
  rw [b.length_eq] at hlt hle
  rw [two_pow_word] at hlt
  rw [hload, hread, Option.map_some, emitEndianConvert_eq _ _ ⟨32, rfl⟩ (by decide), byteSwap,
    BitVec.toNat_ofNat, Nat.mod_eq_of_lt hlt]
  show some (BitVec.ofNat 256 (ofBE (leBytes 32 (ofLE b.bytes)))) = _
  rw [hle]
  rfl

/-! ## §3 — storage. -/

theorem emitSload_word (isConst : Bool) {m : LinMem} (fr : WordFrame m) (storage : Storage)
    (k : Word) :
    emitSload isConst m fr storage ⟨.i256, k⟩ =
      some (Bytes32.of k, (storage (Bytes32.of k)).toWord) := by
  have hval : Slot { m with bytes := write m.bytes fr.slotPtr (Bytes32.of k).bytes } fr.valPtr 32 :=
    fr.val_slot.write _
  have hpush := createLoadMem_write hval (storage (Bytes32.of k))
  show (createStoreMem 256 m fr.slotPtr (emitEndianConvert isConst k)).bind _ = _
  rw [createStoreMem_swapped fr.slot_slot, Option.bind_some, loadBytes32_write fr.slot_slot,
    Option.bind_eq_bind, Option.bind_some, storeBytes32, storeFixed_of_slot _ hval,
    Option.bind_eq_bind, Option.bind_some]
  obtain ⟨v, hv, hpush⟩ := Option.map_eq_some_iff.mp hpush
  rw [hv, ← hpush]
  rfl

/-- A key in a narrower register is stored through a pointer of another type. -/
theorem emitSload_narrow (isConst : Bool) {m : LinMem} (fr : WordFrame m) (storage : Storage)
    {index : Reg} (h : index.width ≠ .i256) : emitSload isConst m fr storage index = none := by
  have hty : index.width.bits ≠ 256 := by
    cases hw : index.width <;> first | exact absurd hw h | decide
  rw [emitSload, createStoreMem, if_neg hty]
  rfl

theorem emitSload_iff (isConst : Bool) {m : LinMem} (fr : WordFrame m) (storage : Storage)
    (index : Reg) :
    emitSload isConst m fr storage index =
        some (Bytes32.of index.denote, (storage (Bytes32.of index.denote)).toWord) ↔
      index.width = .i256 := by
  by_cases h : index.width = .i256
  · refine iff_of_true ?_ h
    obtain ⟨w, v⟩ := index
    cases h
    have hk : Reg.denote ⟨.i256, v⟩ = v := denote_word v
    rw [hk]
    exact emitSload_word isConst fr storage v
  · rw [emitSload_narrow isConst fr storage h]
    exact iff_of_false nofun h

/-- `SSTORE` is right for registers of every width. -/
theorem emitSstore_eq (indexConst valueConst : Bool) {m : LinMem} (fr : WordFrame m)
    (index value : Reg) :
    emitSstore indexConst valueConst m fr index value =
      some (Bytes32.of index.denote, Bytes32.of value.denote) := by
  show (createStoreMem 256 m fr.slotPtr (emitEndianConvert indexConst index.denote)).bind (fun m =>
    (createStoreMem 256 m fr.valPtr (emitEndianConvert valueConst value.denote)).bind _) = _
  rw [createStoreMem_swapped fr.slot_slot, Option.bind_some,
    createStoreMem_swapped (fr.val_slot.write _), Option.bind_some,
    loadBytes32_write_apart (fr.slot_slot.write _) _
      (by rw [(Bytes32.of _).length_eq]; exact fr.apart),
    loadBytes32_write fr.slot_slot, loadBytes32_write (fr.val_slot.write _)]
  rfl

/-! ## §4 — log topics. -/

/-- The slots of the topics lie in memory, and no two share a byte. -/
structure TopicSlots (m : LinMem) (topics : List (Nat × StackReg)) : Prop where
  slot : ∀ t ∈ topics, Slot m t.1 (t.2.width.bits / 8)
  apart : topics.Pairwise fun s t => Apart s.1 (s.2.width.bits / 8) t.1 (t.2.width.bits / 8)

/-- A topic's slot covers the address. -/
def covers (a : Nat) (t : Nat × StackReg) : Bool := t.1 ≤ a ∧ a < t.1 + t.2.width.bits / 8

/-- The byte at `a` once the topics are in their slots: a topic's, or the one that was there. -/
def topicByte (m : LinMem) (topics : List (Nat × StackReg)) (a : Nat) : Byte :=
  match topics.find? (covers a) with
  | some t => t.2.bytes.getD (a - t.1) 0
  | none => m.bytes a

@[simp] theorem Reg.length_bytes (r : Reg) : r.bytes.length = r.width.bits / 8 := length_leBytes _ _

theorem storeTopics_bytes {m : LinMem} {topics : List (Nat × StackReg)} (h : TopicSlots m topics) :
    ∃ m', storeTopics m topics = some m' ∧ m'.size = m.size ∧
      ∀ a, m'.bytes a = topicByte m topics a := by
  induction topics generalizing m with
  | nil => exact ⟨m, rfl, rfl, fun a => rfl⟩
  | cons t topics ih =>
    obtain ⟨adr, topic⟩ := t
    obtain ⟨hapart, hrest⟩ := List.pairwise_cons.mp h.apart
    have hslot := h.slot _ List.mem_cons_self
    have hnext : TopicSlots { m with bytes := write m.bytes adr topic.bytes } topics :=
      ⟨fun t ht => (h.slot t (List.mem_cons_of_mem _ ht)).write _, hrest⟩
    obtain ⟨m', hm', hsize, hbytes⟩ := ih hnext
    refine ⟨m', ?_, hsize, fun a => ?_⟩
    · rw [storeTopics, createStoreMem_of_slot _ hslot]
      exact hm'
    · rw [hbytes, topicByte, topicByte, List.find?_cons]
      by_cases hc : covers a (adr, topic) = true
      · -- no later topic covers the byte, so the write is what stays
        have hrange : adr ≤ a ∧ a < adr + topic.width.bits / 8 := by simpa [covers] using hc
        have hnone : topics.find? (covers a) = none := by
          rw [List.find?_eq_none]
          intro t ht hct
          have hct : t.1 ≤ a ∧ a < t.1 + t.2.width.bits / 8 := by simpa [covers] using hct
          rcases hapart t ht with h | h <;> dsimp only at h <;> omega
        rw [hnone, hc]
        show write m.bytes adr topic.bytes a = topic.bytes.getD (a - adr) 0
        have hlt : a - adr < topic.bytes.length := by rw [Reg.length_bytes]; omega
        have hw : write m.bytes adr topic.bytes (adr + (a - adr)) = _ := write_add hlt
        rw [show adr + (a - adr) = a by omega] at hw
        rw [hw, List.getD_eq_getElem?_getD, List.getElem?_eq_getElem hlt]
        rfl
      · rw [Bool.not_eq_true] at hc
        rw [hc]
        dsimp only
        cases topics.find? (covers a) with
        | some t => rfl
        | none =>
          apply write_of_not_inRange
          rintro ⟨h1, h2⟩
          rw [Reg.length_bytes] at h2
          have hc : ¬ (adr ≤ a ∧ a < adr + topic.width.bits / 8) := by simpa [covers] using hc
          exact hc ⟨h1, h2⟩

/-- In its own slot a topic finds its own bytes. -/
theorem topicByte_own {m : LinMem} {topics : List (Nat × StackReg)} (h : TopicSlots m topics)
    {t : Nat × StackReg} (ht : t ∈ topics) {j : Nat} (hj : j < t.2.width.bits / 8) :
    topicByte m topics (t.1 + j) = t.2.bytes.getD j 0 := by
  have hcov : covers (t.1 + j) t = true := by simp [covers, hj]
  cases hf : topics.find? (covers (t.1 + j)) with
  | none => exact absurd hcov (List.find?_eq_none.mp hf t ht)
  | some s =>
    have hs := List.mem_of_find?_eq_some hf
    have hscov : s.1 ≤ t.1 + j ∧ t.1 + j < s.1 + s.2.width.bits / 8 := by
      simpa [covers] using List.find?_some hf
    have hst : s = t := by
      by_contra hne
      have hsymm : Std.Symm fun s t : Nat × StackReg =>
          Apart s.1 (s.2.width.bits / 8) t.1 (t.2.width.bits / 8) := ⟨fun _ _ h => h.symm⟩
      rcases h.apart.forall hs ht hne with h | h <;> omega
    rw [topicByte, hf, hst]
    show t.2.bytes.getD (t.1 + j - t.1) 0 = _
    rw [Nat.add_sub_cancel_left]

/-- When a topic reaches the host: a palindrome in a full register. A narrow register has to be
zero, and so have the bytes behind its slot, which the host reads as well. -/
def TopicReaches (m : LinMem) (topics : List (Nat × StackReg)) (t : Nat × StackReg) : Prop :=
  if t.2.width = .i256 then BytePalindrome t.2.val
  else t.1 + 32 ≤ m.size ∧ t.2.val = 0 ∧
    ∀ j, t.2.width.bits / 8 ≤ j → j < 32 → topicByte m topics (t.1 + j) = 0

theorem getElem_beBytes {n v j : Nat} (h : j < (beBytes n v).length) :
    (beBytes n v)[j] = BitVec.ofNat 8 (v / 256 ^ (n - 1 - j)) := by
  simp only [beBytes, List.getElem_reverse, Lib.getElem_leBytes, length_leBytes]

/-- A narrow value, least significant byte first and followed by `tail`, is the thirty-two
big-endian bytes of the value only if there is nothing to see. -/
theorem narrow_topic_iff {k v : Nat} {f : Nat → Byte} (hk : k ≤ 16) (hv : v < 256 ^ k)
    (hown : ∀ j, j < k → f j = (leBytes k v).getD j 0) :
    (List.range 32).map f = beBytes 32 v ↔ v = 0 ∧ ∀ j, k ≤ j → j < 32 → f j = 0 := by
  have hpoint : (List.range 32).map f = beBytes 32 v ↔
      ∀ j, j < 32 → f j = BitVec.ofNat 8 (v / 256 ^ (31 - j)) := by
    constructor
    · intro h j hj
      have hget : ((List.range 32).map f)[j]? = (beBytes 32 v)[j]? := by rw [h]
      rw [List.getElem?_eq_getElem (by simpa using hj),
        List.getElem?_eq_getElem (by simpa using hj), getElem_beBytes] at hget
      simpa using hget
    · intro h
      refine List.ext_getElem (by simp) fun j h₁ h₂ => ?_
      rw [getElem_beBytes, List.getElem_map, List.getElem_range]
      exact h j (by simpa using h₁)
  have hzero : ∀ j, j < k → BitVec.ofNat 8 (v / 256 ^ (31 - j)) = 0 := by
    intro j hj
    have hle : (256 : Nat) ^ k ≤ 256 ^ (31 - j) := Nat.pow_le_pow_right (by decide) (by omega)
    rw [Nat.div_eq_of_lt (by omega)]
    rfl
  rw [hpoint]
  constructor
  · intro h
    have hle : leBytes k v = leBytes k 0 := by
      refine List.ext_getElem (by simp) fun j h₁ h₂ => ?_
      have hj : j < k := by simpa using h₁
      have hb := (hown j hj).symm.trans ((h j (by omega)).trans (hzero j hj))
      rw [List.getD_eq_getElem?_getD, List.getElem?_eq_getElem h₁, Option.getD_some] at hb
      rw [hb, Lib.getElem_leBytes, Nat.zero_div]
      rfl
    have hv0 : v = 0 := Lib.leBytes_inj hv (Nat.pow_pos (by decide)) hle
    refine ⟨hv0, fun j _ hj => ?_⟩
    rw [h j hj, hv0, Nat.zero_div]
    rfl
  · rintro ⟨rfl, htail⟩ j hj
    rw [Nat.zero_div]
    rcases Nat.lt_or_ge j k with hjk | hjk
    · rw [hown j hjk, List.getD_eq_getElem?_getD, List.getElem?_eq_getElem (by simpa using hjk),
        Option.getD_some, Lib.getElem_leBytes, Nat.zero_div]
    · rw [htail j hjk hj]
      rfl

theorem narrowTopic_iff {m m' : LinMem} {topics : List (Nat × StackReg)} {adr : Nat} {r : StackReg}
    (hread : read m'.bytes adr 32 = (List.range 32).map fun j => topicByte m topics (adr + j))
    (hown : ∀ j, j < r.width.bits / 8 → topicByte m topics (adr + j) = r.bytes.getD j 0)
    (hk : r.width.bits / 8 ≤ 16) (hw : r.width ≠ .i256) :
    (if adr + 32 ≤ m.size then some (⟨read m'.bytes adr 32, length_read ..⟩ : Bytes32) else none) =
        some (Bytes32.of r.denote) ↔
      if r.width = .i256 then BytePalindrome r.val
      else adr + 32 ≤ m.size ∧ r.val = 0 ∧
        ∀ j, r.width.bits / 8 ≤ j → j < 32 → topicByte m topics (adr + j) = 0 := by
  rw [if_neg hw]
  have hbits : 8 * (r.width.bits / 8) = r.width.bits := by
    cases hr : r.width <;> first | exact absurd hr r.ne_i1 | rfl
  have hlt : r.val.toNat < 256 ^ (r.width.bits / 8) := by
    rw [show (256 : Nat) = 2 ^ 8 from rfl, ← Nat.pow_mul, hbits]
    exact r.val.isLt
  have hval : r.denote.toNat = r.val.toNat := toNat_setWidth_narrow (by omega) r.val
  by_cases hin : adr + 32 ≤ m.size
  · rw [if_pos hin, and_iff_right hin, Option.some_inj,
      show r.val = 0 ↔ r.val.toNat = 0 from BitVec.toNat_eq.trans (by simp),
      ← narrow_topic_iff hk hlt hown]
    constructor
    · intro hb
      have hb := congrArg FixedBytes.bytes hb
      rw [← hread, ← hval]
      exact hb
    · intro hb
      apply FixedBytes.ext
      rw [← hread, ← hval] at hb
      exact hb
  · rw [if_neg hin]
    exact iff_of_false nofun fun hc => hin hc.1

theorem wideTopic_iff {m m' : LinMem} {topics : List (Nat × StackReg)} {adr : Nat} {v : Word}
    (hread : read m'.bytes adr 32 = (List.range 32).map fun j => topicByte m topics (adr + j))
    (hown : ∀ j, j < Width.i256.bits / 8 →
      topicByte m topics (adr + j) = (Reg.bytes ⟨.i256, v⟩).getD j 0)
    (hin : adr + Width.i256.bits / 8 ≤ m.size) :
    (if adr + 32 ≤ m.size then some (⟨read m'.bytes adr 32, length_read ..⟩ : Bytes32) else none) =
        some (Bytes32.of (Reg.denote ⟨.i256, v⟩)) ↔ BytePalindrome v := by
  have h32 : Width.i256.bits / 8 = 32 := by decide
  have hbytes : Reg.bytes ⟨.i256, v⟩ = leBytes 32 v.toNat := congrArg (leBytes · v.toNat) h32
  rw [h32] at hin hown
  have hbe : read m'.bytes adr 32 = (Bytes32.of (byteSwap v)).bytes := by
    rw [hread]
    refine Eq.trans ?_ (leBytes_eq_beBytes_byteSwap v ⟨32, rfl⟩)
    refine List.ext_getElem (by simp) fun j h₁ h₂ => ?_
    have hj : j < 32 := by simpa using h₁
    rw [List.getElem_map, List.getElem_range, hown j hj, hbytes, List.getD_eq_getElem?_getD,
      List.getElem?_eq_getElem (by simpa using hj)]
    rfl
  have hself : (⟨read m'.bytes adr 32, length_read ..⟩ : Bytes32) = Bytes32.of (byteSwap v) :=
    FixedBytes.ext hbe
  rw [if_pos hin, denote_word, Option.some_inj, hself]
  exact Bytes32.of_inj

/-- One topic, in a memory that holds them all. -/
theorem loadTopic_iff {m m' : LinMem} {topics : List (Nat × StackReg)} (h : TopicSlots m topics)
    (hsize : m'.size = m.size) (hbytes : ∀ a, m'.bytes a = topicByte m topics a)
    {t : Nat × StackReg} (ht : t ∈ topics) :
    loadBytes32 m' t.1 = some (Bytes32.of t.2.denote) ↔ TopicReaches m topics t := by
  have hread : read m'.bytes t.1 32 = (List.range 32).map fun j => topicByte m topics (t.1 + j) :=
    List.map_congr_left fun j _ => hbytes _
  have hown : ∀ j, j < t.2.width.bits / 8 → topicByte m topics (t.1 + j) = t.2.bytes.getD j 0 :=
    fun j hj => topicByte_own h ht hj
  have hslot := h.slot t ht
  rw [loadBytes32, loadFixed, TopicReaches, hsize]
  by_cases hw : t.2.width = .i256
  · rw [if_pos hw]
    obtain ⟨adr, ⟨w, v⟩, hne⟩ := t
    cases hw
    exact wideTopic_iff hread hown hslot.inBounds
  · refine narrowTopic_iff hread hown ?_ hw
    cases hr : t.2.width
    · exact absurd hr t.2.ne_i1
    · decide
    · decide
    · exact absurd hr hw

theorem mapM_eq_some_map {α β : Type} (f : α → Option β) (g : α → β) (l : List α) :
    l.mapM f = some (l.map g) ↔ ∀ x ∈ l, f x = some (g x) := by
  induction l with
  | nil => simp
  | cons x l ih =>
    rw [List.mapM_cons, List.map_cons, List.forall_mem_cons, ← ih]
    cases f x with
    | none => simp
    | some y => cases l.mapM f <;> simp

/-- **Every topic of a `LOG` reaches the host** exactly when each of them does. -/
theorem emitLog_iff {m : LinMem} {topics : List (Nat × StackReg)} (h : TopicSlots m topics) :
    emitLog m topics = some (topics.map fun t => Bytes32.of t.2.denote) ↔
      ∀ t ∈ topics, TopicReaches m topics t := by
  obtain ⟨m', hm', hsize, hbytes⟩ := storeTopics_bytes h
  rw [emitLog, hm', Option.bind_eq_bind, Option.bind_some, mapM_eq_some_map]
  exact forall₂_congr fun t ht => loadTopic_iff h hsize hbytes ht

/-! ## §5 — hashes. -/

section Blockhash

variable {m : LinMem} {p : Nat} (hp : Slot m p 32) (getBlockHash : BitVec 64 → Bytes32)

theorem denote_i1_eq_one (b : Bool) : Reg.denote ⟨.i1, BitVec.ofBool b⟩ = 1 ↔ b = true := by
  cases b <;> decide

/-- The emitted code on a 256-bit number. -/
theorem emitBlockhash_word (v : Word) : emitBlockhash m p getBlockHash ⟨.i256, v⟩ =
    (eeiGetBlockHash getBlockHash (v.setWidth 64) p m).bind fun m =>
      (createLoadMem 256 m p).map fun loaded =>
        emitEndianConvert false (if 2 ^ 63 ≤ v.toNat then 0 else loaded) := by
  have hcmp : createICmp (fun number limit => limit.ult number) ⟨.i256, v⟩
      ⟨.i256, BitVec.ofNat 256 (2 ^ 63 - 1)⟩ =
        some ⟨.i1, BitVec.ofBool ((BitVec.ofNat 256 (2 ^ 63 - 1)).ult v)⟩ :=
    createICmp_same _ .i256 v (BitVec.ofNat 256 (2 ^ 63 - 1))
  have hbig : Reg.denote ⟨.i1, BitVec.ofBool ((BitVec.ofNat 256 (2 ^ 63 - 1)).ult v)⟩ = 1 ↔
      2 ^ 63 ≤ v.toNat := by
    rw [denote_i1_eq_one, BitVec.ult, decide_eq_true_iff, BitVec.toNat_ofNat,
      Nat.mod_eq_of_lt (by decide : 2 ^ 63 - 1 < 2 ^ 256)]
    omega
  have htrunc : truncOrBitCast 64 ⟨.i256, v⟩ = some (v.setWidth 64) := by
    have hle : 64 ≤ Width.i256.bits := by decide
    rw [truncOrBitCast_of_le hle (by decide), denote_word]
  rw [emitBlockhash, hcmp, htrunc]
  simp only [Option.bind_eq_bind, Option.bind_some, if_congr hbig rfl rfl, Option.pure_def]
  congr 1
  funext m
  exact Option.map_eq_bind.symm

theorem emitBlockhash_narrow {number : Reg} (h : number.width ≠ .i256) :
    emitBlockhash m p getBlockHash number = none := by
  rw [emitBlockhash, createICmp, dif_neg fun hw => h hw.symm]
  rfl

include hp

/-- `BLOCKHASH` of a 256-bit number that is too big is 0. -/
theorem emitBlockhash_big {v : Word} (hv : 2 ^ 63 ≤ v.toNat) :
    emitBlockhash m p getBlockHash ⟨.i256, v⟩ = some 0 := by
  have hzero : emitEndianConvert false (0 : Word) = 0 := by
    rw [emitEndianConvert_eq _ _ ⟨32, rfl⟩ (by decide)]
    decide +kernel
  have hload : ∀ m', Slot m' p 32 →
      (createLoadMem 256 m' p).map (fun _ => emitEndianConvert false (0 : Word)) = some 0 := by
    intro m' hp'
    rw [createLoadMem_of_slot hp', Option.map_some, hzero]
  rw [emitBlockhash_word, eeiGetBlockHash]
  simp only [if_pos hv]
  split
  · rw [Option.bind_some, hload m hp]
  · rw [storeBytes32, storeFixed_of_slot _ hp, Option.bind_some, hload _ (hp.write _)]

theorem emitBlockhash_small {v w : Word} (hv : v.toNat < 2 ^ 63) (hw : w ≠ 0)
    (hhash : getBlockHash (v.setWidth 64) = Bytes32.of w) :
    emitBlockhash m p getBlockHash ⟨.i256, v⟩ = some w := by
  have hne : Bytes32.of w ≠ Bytes32.of 0 := fun h => hw (Bytes32.of_inj.mp h)
  have hload := createLoadMem_write hp (Bytes32.of w)
  rw [emitBlockhash_word, eeiGetBlockHash, hhash, if_neg hne, storeBytes32, storeFixed_of_slot _ hp,
    Option.bind_some]
  simp only [if_neg (Nat.not_le.mpr hv)]
  rw [Bytes32.toWord_of] at hload
  exact hload

/-- **`BLOCKHASH`, when the host has the hash.** -/
theorem emitBlockhash_iff {number : Reg} {w : Word} (hw : w ≠ 0)
    (hhash : getBlockHash (number.denote.setWidth 64) = Bytes32.of w) :
    emitBlockhash m p getBlockHash number = some w ↔
      number.width = .i256 ∧ number.denote.toNat < 2 ^ 63 := by
  by_cases h : number.width = .i256
  · obtain ⟨width, v⟩ := number
    cases h
    have hv : Reg.denote ⟨.i256, v⟩ = v := denote_word v
    rw [and_iff_right rfl, hv]
    rw [hv] at hhash
    by_cases hlt : BitVec.toNat v < 2 ^ 63
    · exact iff_of_true (emitBlockhash_small hp getBlockHash hlt hw hhash) hlt
    · refine iff_of_false (fun hc => ?_) hlt
      have hzero : emitBlockhash m p getBlockHash ⟨.i256, v⟩ = some 0 :=
        emitBlockhash_big hp getBlockHash (Nat.le_of_not_lt hlt)
      exact hw (Option.some_inj.mp (hc.symm.trans hzero))
  · rw [emitBlockhash_narrow getBlockHash h]
    exact iff_of_false nofun fun hc => h hc.1

end Blockhash

/-- A hash whose first four bytes, read little-endian, are its value is zero. -/
theorem ofLE_take_eq_ofBE_iff (h : Bytes32) : ofLE (h.bytes.take 4) = ofBE h.bytes ↔
    h = Bytes32.of 0 := by
  constructor
  · intro heq
    have hlen : (h.bytes.take 4).length = 4 := by rw [List.length_take, h.length_eq]; rfl
    have hlt := Lib.ofLE_lt (h.bytes.take 4)
    -- the first four bytes weigh `256^28` or more in the big-endian value
    have hsplit : ofBE h.bytes = ofBE (h.bytes.drop 4) + 256 ^ 28 * ofBE (h.bytes.take 4) := by
      conv_lhs => rw [← List.take_append_drop 4 h.bytes]
      rw [ofBE, List.reverse_append, Lib.ofLE_append, List.length_reverse, List.length_drop,
        h.length_eq]
      rfl
    rw [hlen] at hlt
    have hhigh : ofBE (h.bytes.take 4) = 0 := by
      by_contra hne
      have hpos : 1 ≤ ofBE (h.bytes.take 4) := Nat.pos_of_ne_zero hne
      have hbig : (256 : Nat) ^ 28 * 1 ≤ 256 ^ 28 * ofBE (h.bytes.take 4) :=
        Nat.mul_le_mul_left _ hpos
      have hpow : (256 : Nat) ^ 4 < 256 ^ 28 * 1 := by decide
      omega
    have hzeros : h.bytes.take 4 = beBytes 4 0 := by
      have hbe := Lib.beBytes_ofBE (h.bytes.take 4)
      rw [hlen, hhigh] at hbe
      exact hbe.symm
    have htotal : ofBE h.bytes = 0 := by
      rw [← heq, hzeros]
      decide
    have hbytes := Lib.beBytes_ofBE h.bytes
    rw [h.length_eq, htotal] at hbytes
    exact FixedBytes.ext hbytes.symm
  · rintro rfl
    decide

/-- The `i32` loaded from a slot where the host wrote thirty-two bytes. -/
theorem createLoadMem_prefix {m : LinMem} {q : Nat} (hq : Slot m q 32) (h : Bytes32) :
    createLoadMem 32 { m with bytes := write m.bytes q h.bytes } q =
      some (BitVec.ofNat 32 (ofLE (h.bytes.take 4))) := by
  have hq4 : Slot { m with bytes := write m.bytes q h.bytes } q (32 / 8) :=
    ⟨by have := hq.inBounds; simp only; omega, by have := hq.noWrap; omega⟩
  have hread := read_write_self m.bytes q h.bytes
  rw [h.length_eq] at hread
  have hfour : read (write m.bytes q h.bytes) q (32 / 8) = h.bytes.take 4 := by
    have hsplit := read_add (write m.bytes q h.bytes) q (32 / 8) 28
    conv_rhs => rw [← hread]
    exact ((congrArg (List.take 4) hsplit).trans (List.take_left' (length_read ..))).symm
  rw [createLoadMem_of_slot hq4, hfour]

theorem denote_prefix_iff (h : Bytes32) :
    Reg.denote ⟨.i32, BitVec.ofNat 32 (ofLE (h.bytes.take 4))⟩ = h.toWord ↔ h = Bytes32.of 0 := by
  have hlen : (h.bytes.take 4).length = 4 := by rw [List.length_take, h.length_eq]; rfl
  have hlow : ofLE (h.bytes.take 4) < 2 ^ 32 := by
    have hlt := Lib.ofLE_lt (h.bytes.take 4)
    rw [hlen] at hlt
    exact hlt
  have hword : ofBE h.bytes < 2 ^ 256 := by
    have hlt := Lib.ofBE_lt h.bytes
    rwa [h.length_eq, two_pow_word] at hlt
  have hden : (Reg.denote ⟨.i32, BitVec.ofNat 32 (ofLE (h.bytes.take 4))⟩).toNat =
      ofLE (h.bytes.take 4) := by
    have hnarrow :=
      toNat_setWidth_narrow (by decide : 32 ≤ 128) (BitVec.ofNat 32 (ofLE (h.bytes.take 4)))
    rw [BitVec.toNat_ofNat, Nat.mod_eq_of_lt hlow] at hnarrow
    exact hnarrow
  rw [← ofLE_take_eq_ofBE_iff, ← BitVec.toNat_inj, hden, Bytes32.toWord, BitVec.toNat_ofNat,
    Nat.mod_eq_of_lt hword]

/-- **`EXTCODEHASH`** pushes the hash that the host wrote for a zero hash only. -/
theorem emitExtcodehashResult_iff {m : LinMem} {p : Nat} (hp : Slot m p 20) (resultPtr : Nat)
    (codeHash : Address → Bytes32) (isConst : Bool) (address : StackReg) :
    (∃ h r, emitExtcodehashResult isConst m p resultPtr codeHash address.toReg = some (h, r) ∧
        r.denote = h.toWord) ↔
      address.width = .i256 ∧ Slot m resultPtr 32 ∧
        codeHash (Address.of (byteSwap (address.denote.setWidth 160))) = Bytes32.of 0 := by
  rw [← (Width.bits_iff address.ne_i1).2.2.2, emitExtcodehashResult]
  by_cases hw : 160 ≤ address.width.bits
  · have hstore := storeOperand_eq hp (address.denote.setWidth 160) false isConst hw rfl
    simp only [Bool.false_eq_true, if_false] at hstore
    simp only [Option.bind_eq_bind, hstore, Option.bind_some, loadAddress_write hp]
    rw [and_iff_right hw]
    by_cases hs : Slot m resultPtr 32
    · rw [storeBytes32, storeFixed_of_slot _ (hs.write _), and_iff_right hs, ← denote_prefix_iff,
        Option.bind_some, createLoadMem_prefix (hs.write _), Option.bind_some]
      constructor
      · rintro ⟨h, r, heq, hr⟩
        cases heq
        exact hr
      · intro hr
        exact ⟨_, _, rfl, hr⟩
    · have hnone : ∀ (f : Nat → Byte) (h : Bytes32),
          storeBytes32 h resultPtr { m with bytes := f } = none := by
        intro f h
        rw [storeBytes32, storeFixed]
        split
        · rename_i hwrap
          rw [LinMem.store, if_neg]
          rw [h.length_eq]
          exact fun hin => hs ⟨hin, hwrap⟩
        · rfl
      rw [hnone]
      refine iff_of_false ?_ fun hc => hs hc.1
      rintro ⟨h, r, heq, -⟩
      cases heq
  · rw [storeOperand_eq_none false isConst hw]
    refine iff_of_false ?_ fun hc => hw hc.1
    rintro ⟨h, r, heq, -⟩
    cases heq

/-! ## §6 — every opcode. -/

/-- `SSTORE(k, v)` and then `SLOAD(k)`, with `k` in a register of its own each time. -/
theorem sstore_sload_iff {m m' : LinMem} (fr : WordFrame m) (fr' : WordFrame m')
    (indexConst valueConst keyConst : Bool) (storage : Storage) (index value key : Reg)
    (hkey : key.denote = index.denote) :
    ((emitSstore indexConst valueConst m fr index value).bind fun s =>
        (emitSload keyConst m' fr' (Function.update storage s.1 s.2) key).map Prod.snd) =
          some value.denote ↔ key.width = .i256 := by
  rw [emitSstore_eq, Option.bind_some]
  by_cases h : key.width = .i256
  · refine iff_of_true ?_ h
    rw [(emitSload_iff keyConst fr' _ key).mpr h, Option.map_some, hkey]
    show some (Bytes32.toWord (Function.update storage _ _ _)) = _
    rw [Function.update_self, Bytes32.toWord_of]
  · rw [emitSload_narrow keyConst fr' _ h]
    exact iff_of_false nofun h

/-- The host sees the topics of a `LOG` as it sees the same registers stored. -/
theorem topics_as_values_iff {m m' : LinMem} (fr' : WordFrame m') (indexConst valueConst : Bool)
    (index : Reg) {topics : List (Nat × StackReg)} (h : TopicSlots m topics) :
    emitLog m topics = topics.mapM (fun t =>
        (emitSstore indexConst valueConst m' fr' index t.2.toReg).map Prod.snd) ↔
      ∀ t ∈ topics, TopicReaches m topics t := by
  rw [← emitLog_iff h, (mapM_eq_some_map _ (fun t => Bytes32.of t.2.denote) topics).mpr]
  intro t _
  rw [emitSstore_eq, Option.map_some]

/-- Each opcode that moves thirty-two bytes, in any memory with the slots it needs. -/
theorem word_boundary_iff (m : LinMem) (fr : WordFrame m) :
    -- the key and the value of `SSTORE`
    (∀ (indexConst valueConst : Bool) (index value : Reg),
      emitSstore indexConst valueConst m fr index value =
        some (Bytes32.of index.denote, Bytes32.of value.denote)) ∧
    -- the key and the result of `SLOAD`
    (∀ (isConst : Bool) (storage : Storage) (index : Reg),
      (emitSload isConst m fr storage index =
        some (Bytes32.of index.denote, (storage (Bytes32.of index.denote)).toWord) ↔
          index.width = .i256)) ∧
    -- the topics of `LOG1` to `LOG4`
    (∀ topics : List (Nat × StackReg), TopicSlots m topics →
      (emitLog m topics = some (topics.map fun t => Bytes32.of t.2.denote) ↔
        ∀ t ∈ topics, TopicReaches m topics t)) ∧
    -- the result of `BLOCKHASH`, when the host has the hash
    (∀ (getBlockHash : BitVec 64 → Bytes32) (number : Reg) (w : Word), w ≠ 0 →
      getBlockHash (number.denote.setWidth 64) = Bytes32.of w →
      (emitBlockhash m fr.valPtr getBlockHash number = some w ↔
        number.width = .i256 ∧ number.denote.toNat < 2 ^ 63)) ∧
    -- the result of `EXTCODEHASH`
    (∀ (codeHash : Address → Bytes32) (isConst : Bool) (address : StackReg) (resultPtr : Nat),
      ((∃ h r, emitExtcodehashResult isConst m fr.slotPtr resultPtr codeHash address.toReg =
        some (h, r) ∧ r.denote = h.toWord) ↔
        address.width = .i256 ∧ Slot m resultPtr 32 ∧
          codeHash (Address.of (byteSwap (address.denote.setWidth 160))) = Bytes32.of 0)) ∧
    -- what is stored is loaded again
    (∀ (indexConst valueConst keyConst : Bool) (storage : Storage) (index value key : Reg),
      key.denote = index.denote →
      (((emitSstore indexConst valueConst m fr index value).bind fun s =>
          (emitSload keyConst m fr (Function.update storage s.1 s.2) key).map Prod.snd) =
            some value.denote ↔ key.width = .i256)) ∧
    -- a word is one byte string as a value and as a topic
    ∀ (indexConst valueConst : Bool) (index : Reg) (topics : List (Nat × StackReg)),
      TopicSlots m topics → (emitLog m topics = topics.mapM (fun t =>
          (emitSstore indexConst valueConst m fr index t.2.toReg).map Prod.snd) ↔
        ∀ t ∈ topics, TopicReaches m topics t) := by
  have haddress : Slot m fr.slotPtr 20 :=
    ⟨by have := fr.slot_slot.inBounds; omega, by have := fr.slot_slot.noWrap; omega⟩
  refine ⟨fun ic vc => emitSstore_eq ic vc fr, fun c => emitSload_iff c fr, fun _ => emitLog_iff,
    fun g n w => emitBlockhash_iff fr.val_slot g, ?_, ?_, ?_⟩
  · exact fun codeHash c a r => emitExtcodehashResult_iff haddress r codeHash c a
  · exact fun ic vc kc => sstore_sload_iff fr fr ic vc kc
  · exact fun ic vc index _ => topics_as_values_iff fr ic vc index

/-- Two word slots in the empty page. -/
def emptyPageWords : WordFrame emptyPage where
  slotPtr := 1024
  valPtr := 1056
  slot_slot := ⟨by decide, by decide⟩
  val_slot := ⟨by decide, by decide⟩
  apart := .inr (by decide)

/-- `SSTORE(5, 7)` with both in 32-bit registers, then `SLOAD` of a 256-bit 5: 7. -/
theorem word_boundary_iff_storage :
    ((emitSstore false false emptyPage emptyPageWords ⟨.i32, 5#32⟩ ⟨.i32, 7#32⟩).bind fun s =>
      (emitSload false emptyPage emptyPageWords
        (Function.update (fun _ => Bytes32.of 0) s.1 s.2) ⟨.i256, 5#256⟩).map Prod.snd) = some 7 :=
  have h := word_boundary_iff emptyPage emptyPageWords
  (h.2.2.2.2.2.1 false false false (fun _ => Bytes32.of 0) ⟨.i32, 5#32⟩ ⟨.i32, 7#32⟩ ⟨.i256, 5#256⟩
    (by decide)).mpr rfl

/-- `LOG1` with topic 1: the host sees the topic `2^248`. -/
theorem log_topic_reversed :
    emitLog emptyPage [(1024, ⟨⟨.i256, 1#256⟩, nofun⟩)] =
      some [Bytes32.of (BitVec.ofNat 256 (2 ^ 248))] ∧
      Bytes32.of (BitVec.ofNat 256 (2 ^ 248)) ≠ Bytes32.of 1 := by
  decide +kernel

end EvmTrans
