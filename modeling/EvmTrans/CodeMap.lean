/-
# `EvmTrans.CodeMap` — `execute` of the EVMC instance, and the map of compiled code behind it.

`m_codeMap` keeps what `compile` returned under an identifier that `makeCodeId` makes of the
DESTINATION of the message alone; the line that made it of the code hash is commented out. A request
whose identifier has an entry is run with that entry, whatever code it brings.
`execute_own_code_iff` says for which sequences of requests this goes unnoticed.

The compiler is a parameter (the stub of the source returns null). Sequences are in the order of the
look-ups: a nested request looks up after `mapExecFunc` of the outer one, which stands before the
call of Hera.
-/
import EvmTrans.Eei

namespace EvmTrans

/-! ## §1 — the map. -/

/-- `CodeMapEntry`. -/
structure CodeMapEntry where
  func : Option (List Byte)
  hits : Nat

/-- The part of `BTImpl` that requests share. -/
structure BTImpl where
  m_codeMap : String → CodeMapEntry
  hitThreshold : Nat

/-- A fresh instance: an entry is default-constructed when it is first asked for. -/
def BTImpl.init : BTImpl where
  m_codeMap := fun _ => ⟨none, 0⟩
  hitThreshold := 0

/-- `evmc_call_kind`. -/
inductive CallKind where
  | call | delegatecall | callcode | create | create2
  deriving DecidableEq, Repr

/-- What `execute` is given: of the message its kind, flags and destination; the revision, and the
code. -/
structure Request where
  kind : CallKind
  flags : BitVec 32
  destination : Address
  rev : Nat
  code : List Byte

/-- `hexChars[d]`. -/
def hexChar (d : Nat) : Char := "0123456789abcdef".toList.getD d '0'

/-- The two digits of a byte. -/
def hexByte (b : Byte) : List Char := [hexChar (b >>> 4).toNat, hexChar (b &&& 0xf).toNat]

/-- `makeCodeId(destination, rev, flags)`. -/
def makeCodeId (destination : Address) (_rev : Nat) (_flags : BitVec 32) : String :=
  String.ofList (destination.bytes.flatMap hexByte)

/-- `getExecFunc`: the entry, with this hit counted. -/
def BTImpl.getExecFunc (bt : BTImpl) (codeIdentifier : String) : CodeMapEntry × BTImpl :=
  let entry := bt.m_codeMap codeIdentifier
  let entry := { entry with hits := entry.hits + 1 }
  (entry, { bt with m_codeMap := Function.update bt.m_codeMap codeIdentifier entry })

/-- `mapExecFunc`. -/
def BTImpl.mapExecFunc (bt : BTImpl) (codeIdentifier : String) (funcAddr : List Byte) : BTImpl :=
  let entry := bt.m_codeMap codeIdentifier
  { bt with m_codeMap :=
    Function.update bt.m_codeMap codeIdentifier { entry with func := some funcAddr } }

/-- What becomes of a request: `EVMC_REJECTED`, `EVMC_INTERNAL_ERROR`, or this wasm handed to
Hera. -/
inductive Handed where
  | rejected
  | internalError
  | hera (wasm : List Byte)
  deriving DecidableEq, Repr

/-- `execute`, up to the call of Hera. -/
def execute (compile : List Byte → Option (List Byte)) (bt : BTImpl) (r : Request) :
    Handed × BTImpl :=
  let codeIdentifier := makeCodeId r.destination r.rev r.flags
  let (codeEntry, bt) := bt.getExecFunc codeIdentifier
  match codeEntry.func with
  | some func => (.hera func, bt)
  | none =>
    if codeEntry.hits ≤ bt.hitThreshold then (.rejected, bt)
    else
      match compile r.code with
      | some (b :: bs) => (.hera (b :: bs), bt.mapExecFunc codeIdentifier (b :: bs))
      | _ => (.internalError, bt)

/-- A sequence of requests, each with what became of it. -/
def executeAll (compile : List Byte → Option (List Byte)) : BTImpl → List Request →
    List (Request × Handed)
  | _, [] => []
  | bt, r :: rs => (r, (execute compile bt r).1) :: executeAll compile (execute compile bt r).2 rs

/-! ## §2 — identifiers are destinations. -/

theorem hexChar_inj : ∀ a < 16, ∀ b < 16, hexChar a = hexChar b → a = b := by decide +kernel

theorem toNat_nibbles : ∀ b : Byte, b.toNat = 16 * (b >>> 4).toNat + (b &&& 0xf).toNat ∧
    (b >>> 4).toNat < 16 ∧ (b &&& 0xf).toNat < 16 := by decide +kernel

/-- Two digits a byte, so the string gives the bytes back. -/
theorem hexDigits_inj : ∀ {xs ys : List Byte}, xs.flatMap hexByte = ys.flatMap hexByte →
    xs = ys := by
  intro xs
  induction xs with
  | nil =>
    intro ys h
    cases ys with
    | nil => rfl
    | cons y ys => cases h
  | cons x xs ih =>
    intro ys h
    cases ys with
    | nil => cases h
    | cons y ys =>
      rw [List.flatMap_cons, List.flatMap_cons] at h
      injection h with hhi h
      injection h with hlo h
      obtain ⟨hx, hx₁, hx₂⟩ := toNat_nibbles x
      obtain ⟨hy, hy₁, hy₂⟩ := toNat_nibbles y
      have hhi := hexChar_inj _ hx₁ _ hy₁ hhi
      have hlo := hexChar_inj _ hx₂ _ hy₂ hlo
      have hxy : x = y := BitVec.eq_of_toNat_eq (by omega)
      rw [hxy, ih h]

theorem makeCodeId_eq_iff {a b : Address} {rev rev' : Nat} {flags flags' : BitVec 32} :
    makeCodeId a rev flags = makeCodeId b rev' flags' ↔ a = b := by
  constructor
  · intro h
    exact FixedBytes.ext (hexDigits_inj (String.ofList_injective h))
  · rintro rfl
    rfl

/-! ## §3 — one request. -/

/-- What the map holds for a destination. -/
def BTImpl.funcOf (bt : BTImpl) (a : Address) : Option (List Byte) :=
  (bt.m_codeMap (makeCodeId a 0 0)).func

/-- Every entry is code that could be run. -/
def BTImpl.Usable (bt : BTImpl) : Prop := ∀ a w, bt.funcOf a = some w → w ≠ []

/-- The code compiles to something that can be run. -/
def Compiles (compile : List Byte → Option (List Byte)) (code : List Byte)
    (wasm : List Byte) : Prop :=
  compile code = some wasm ∧ wasm ≠ []

variable {compile : List Byte → Option (List Byte)} {bt : BTImpl} {r : Request}

theorem getExecFunc_funcOf (bt : BTImpl) (id : String)
    (a : Address) : (bt.getExecFunc id).2.funcOf a = bt.funcOf a := by
  unfold BTImpl.getExecFunc BTImpl.funcOf
  dsimp only
  by_cases h : makeCodeId a 0 0 = id
  · rw [h, Function.update_self]
  · rw [Function.update_of_ne h]

theorem mapExecFunc_funcOf (w : List Byte) (a : Address) :
    (bt.mapExecFunc (makeCodeId r.destination r.rev r.flags) w).funcOf a =
      if a = r.destination then some w else bt.funcOf a := by
  unfold BTImpl.mapExecFunc BTImpl.funcOf
  dsimp only
  split
  · rename_i h
    rw [h, makeCodeId_eq_iff.mpr rfl, Function.update_self]
  · rename_i h
    rw [Function.update_of_ne fun hid => h (makeCodeId_eq_iff.mp hid)]

/-- **Everything a request can do**: it runs the entry of its destination, compiles and enters its
own code, or finds nothing to run. -/
theorem execute_cases (hb : bt.hitThreshold = 0) :
    (∃ w, bt.funcOf r.destination = some w ∧ (execute compile bt r).1 = .hera w ∧
      ∀ a, (execute compile bt r).2.funcOf a = bt.funcOf a) ∨
    (bt.funcOf r.destination = none ∧ ∃ w, Compiles compile r.code w ∧
      (execute compile bt r).1 = .hera w ∧
      ∀ a, (execute compile bt r).2.funcOf a = if a = r.destination then some w else bt.funcOf a) ∨
    (bt.funcOf r.destination = none ∧ (∀ w, ¬ Compiles compile r.code w) ∧
      (execute compile bt r).1 = .internalError ∧
      ∀ a, (execute compile bt r).2.funcOf a = bt.funcOf a) := by
  have hget := getExecFunc_funcOf bt (makeCodeId r.destination r.rev r.flags)
  have hfunc : (bt.getExecFunc (makeCodeId r.destination r.rev r.flags)).1.func =
      bt.funcOf r.destination := by
    show (bt.m_codeMap _).func = (bt.m_codeMap _).func
    rw [makeCodeId_eq_iff.mpr rfl]
  have hhits : ¬ (bt.getExecFunc (makeCodeId r.destination r.rev r.flags)).1.hits ≤
      (bt.getExecFunc (makeCodeId r.destination r.rev r.flags)).2.hitThreshold := by
    show ¬ (bt.m_codeMap _).hits + 1 ≤ bt.hitThreshold
    omega
  unfold execute
  dsimp only
  cases hf : bt.funcOf r.destination with
  | some w =>
    rw [hf] at hfunc
    rw [hfunc]
    exact .inl ⟨w, rfl, rfl, hget⟩
  | none =>
    rw [hf] at hfunc
    rw [hfunc]
    dsimp only
    rw [if_neg hhits]
    refine .inr ?_
    split
    · rename_i b bs hc
      refine .inl ⟨rfl, b :: bs, ⟨hc, List.cons_ne_nil b bs⟩, rfl, fun a => ?_⟩
      rw [mapExecFunc_funcOf, hget]
    · rename_i hc
      refine .inr ⟨rfl, fun w hw => ?_, rfl, hget⟩
      obtain ⟨b, bs, rfl⟩ := List.exists_cons_of_ne_nil hw.2
      exact hc b bs hw.1

theorem execute_hitThreshold : (execute compile bt r).2.hitThreshold = bt.hitThreshold := by
  unfold execute
  dsimp only
  split
  · rfl
  · split
    · rfl
    · split <;> rfl

/-- What is entered can be run. -/
theorem execute_usable (hb : bt.hitThreshold = 0) (h : bt.Usable) :
    (execute compile bt r).2.Usable := by
  intro a v ha
  rcases @execute_cases compile bt r hb with ⟨-, -, -, hfunc⟩ | ⟨-, w, hw, -, hfunc⟩ |
    ⟨-, -, -, hfunc⟩
  · exact h a v (hfunc a ▸ ha)
  · rw [hfunc] at ha
    split at ha
    · cases ha
      exact hw.2
    · exact h a v ha
  · exact h a v (hfunc a ▸ ha)

/-! ## §4 — a sequence of requests. -/

/-- Two requests for one destination: if the first can be run, the second compiles to the same. -/
def Agree (compile : List Byte → Option (List Byte)) (r r' : Request) : Prop :=
  r.destination = r'.destination → ∀ w, Compiles compile r.code w → compile r'.code = some w

/-- Whenever wasm is handed to Hera, it is the request's own code compiled. -/
def OwnCode (compile : List Byte → Option (List Byte)) (trace : List (Request × Handed)) : Prop :=
  ∀ r w, (r, Handed.hera w) ∈ trace → compile r.code = some w

theorem ownCode_cons {r : Request} {rs : List Request} :
    OwnCode compile (executeAll compile bt (r :: rs)) ↔
    (∀ w, (execute compile bt r).1 = .hera w → compile r.code = some w) ∧
      OwnCode compile (executeAll compile (execute compile bt r).2 rs) := by
  constructor
  · intro h
    refine ⟨fun w hw => h r w ?_, fun r' w hmem => h r' w (List.mem_cons_of_mem _ hmem)⟩
    rw [executeAll, hw]
    exact List.mem_cons_self
  · rintro ⟨hr, hrs⟩ r' w hmem
    rcases List.mem_cons.mp hmem with heq | hmem
    · obtain ⟨rfl, hw⟩ := Prod.mk.inj heq
      exact hr w hw.symm
    · exact hrs r' w hmem

/-- **Every run**, from a map that is already filled: the requests agree with the map and with one
another. By induction on the requests left. -/
theorem executeAll_ownCode_iff : ∀ {rs : List Request} {bt : BTImpl}, bt.hitThreshold = 0 →
    bt.Usable → (OwnCode compile (executeAll compile bt rs) ↔
      (∀ r ∈ rs, ∀ w, bt.funcOf r.destination = some w → compile r.code = some w) ∧
        rs.Pairwise (Agree compile)) := by
  intro rs
  induction rs with
  | nil =>
    intro bt _ _
    exact ⟨fun _ => ⟨nofun, List.Pairwise.nil⟩, fun _ => nofun⟩
  | cons r rs ih =>
    intro bt hb husable
    have hb' : (execute compile bt r).2.hitThreshold = 0 := execute_hitThreshold.trans hb
    rw [ownCode_cons, List.pairwise_cons, ih hb' (execute_usable hb husable)]
    rcases @execute_cases compile bt r hb with
      ⟨w, hf, hout, hfunc⟩ | ⟨hf, w, hw, hout, hfunc⟩ | ⟨hf, hw, hout, hfunc⟩
    · -- the entry of an earlier request is run
      rw [hout]
      simp only [hfunc]
      constructor
      · rintro ⟨hr, hrs, hpw⟩
        have hr := hr w rfl
        refine ⟨List.forall_mem_cons.mpr ⟨fun v hv => ?_, hrs⟩, fun r' hr' hd v hv => ?_, hpw⟩
        · rw [hr, ← hf, hv]
        · rw [hrs r' hr' w (hd ▸ hf), ← hr, hv.1]
      · rintro ⟨hrs, -, hpw⟩
        obtain ⟨hr, hrs⟩ := List.forall_mem_cons.mp hrs
        refine ⟨fun v hv => ?_, hrs, hpw⟩
        cases hv
        exact hr w hf
    · -- the request's own code is compiled and entered
      rw [hout]
      simp only [hfunc]
      constructor
      · rintro ⟨-, hrs, hpw⟩
        refine ⟨List.forall_mem_cons.mpr ⟨fun v hv => ?_, fun r' hr' v hv => ?_⟩,
          fun r' hr' hd v hv => ?_, hpw⟩
        · rw [hf] at hv
          cases hv
        · refine hrs r' hr' v ?_
          rw [if_neg, hv]
          intro hd
          rw [hd, hf] at hv
          cases hv
        · rw [hrs r' hr' w (if_pos hd.symm), ← hw.1, hv.1]
      · rintro ⟨hrs, hagree, hpw⟩
        refine ⟨fun v hv => ?_, fun r' hr' v hv => ?_, hpw⟩
        · cases hv
          exact hw.1
        · split at hv
          · rename_i hd
            cases hv
            exact hagree r' hr' hd.symm w hw
          · exact hrs r' (List.mem_cons_of_mem _ hr') v hv
    · -- nothing can be run
      rw [hout]
      simp only [hfunc]
      constructor
      · rintro ⟨-, hrs, hpw⟩
        refine ⟨List.forall_mem_cons.mpr ⟨fun v hv => ?_, hrs⟩,
          fun r' _ _ v hv => absurd hv (hw v), hpw⟩
        rw [hf] at hv
        cases hv
      · rintro ⟨hrs, -, hpw⟩
        exact ⟨nofun, (List.forall_mem_cons.mp hrs).2, hpw⟩

/-- **The code run for a request is the request's own** in exactly the sequences in which all
requests for one destination, from the first one that can be run on, bring code that compiles to the
same. -/
theorem execute_own_code_iff (compile : List Byte → Option (List Byte)) (rs : List Request) :
    OwnCode compile (executeAll compile BTImpl.init rs) ↔ rs.Pairwise (Agree compile) := by
  have hinit : ∀ a, BTImpl.init.funcOf a = none := fun _ => rfl
  rw [executeAll_ownCode_iff rfl fun a w h => absurd ((hinit a).symm.trans h) nofun]
  refine ⟨fun h => h.2, fun h => ⟨fun r _ w hw => ?_, h⟩⟩
  rw [hinit] at hw
  cases hw

/-- Address 7. -/
def address7 : Address := Address.of 7

/-- A call of address 7, and a `DELEGATECALL` made by it: the destination stays, the code is the
library's. -/
def callThenDelegate : List Request :=
  [⟨.call, 0, address7, 5, [0x60, 0x01]⟩, ⟨.delegatecall, 0, address7, 5, [0x60, 0x02]⟩]

/-- With a compiler that returns its input, the second request runs the first one's code. -/
theorem delegate_runs_caller_code :
    (executeAll some BTImpl.init callThenDelegate).map Prod.snd =
      [.hera [0x60, 0x01], .hera [0x60, 0x01]] ∧
    ¬ OwnCode some (executeAll some BTImpl.init callThenDelegate) := by
  have hrun : (executeAll some BTImpl.init callThenDelegate).map Prod.snd =
      [.hera [0x60, 0x01], .hera [0x60, 0x01]] := by decide +kernel
  refine ⟨hrun, fun h => ?_⟩
  rw [callThenDelegate, ownCode_cons, ownCode_cons] at h
  injection hrun with _ hrun
  injection hrun with hsecond _
  have h2 := h.2.1 _ hsecond
  exact absurd h2 (by decide)

end EvmTrans
