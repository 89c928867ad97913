import Mathlib

/-!
# `rpmb.c`: authenticated reads and writes of the replay-protected partition

The RPMB device, and the non-secure proxy in front of it, may answer a request
with any packets.  `rpmb_check_response` accepts an answer only if every packet
has the expected response type and result `RPMB_RES_OK`, and, where the caller
asks for them, the request's nonce and address, and, on the last packet, the
MAC `rpmb_mac` computes over the 284 bytes from `data` on of every packet.

The environment of an operation is a parameter: `hmac key bytes` is
`HMAC-SHA256` (`none` when one of the `HMAC_*` calls fails), the nonce is what
`RAND_bytes` gave, and `rpmb_send`'s answer is an error or the device's packets,
as any function of the request.

* `rpmbCheckResponse_eq_zero`: what an accepted answer satisfies.
* `rpmbRead_spec`: `rpmb_read` fills the caller's buffer only from an accepted
  answer, and leaves it as it was otherwise.
* `rpmbWriteData_spec`: `rpmb_write_data` counts a write only after an accepted
  `DATA_WRITE` answer; a failed one keeps the counter, or clears it on
  `RPMB_RES_COUNT_FAILURE`.
* `rpmbReadCounter_stores`, `rpmbWrite_unchecked_counter`: `rpmb_read_counter`
  stores the device's counter before checking the answer, so `rpmb_write`
  keeps a counter from an answer that failed its MAC check.
-/

namespace Rpmb

/-! ## The model -/

/-- `struct rpmb_packet` from `key_mac` on, each field its bytes, numbers
big-endian as the device sends them. -/
structure Packet where
  keyMac : List UInt8
  data : List UInt8
  nonce : List UInt8
  writeCounter : List UInt8
  address : List UInt8
  blockCount : List UInt8
  result : List UInt8
  reqResp : List UInt8
  deriving DecidableEq, Repr

/-- `struct rpmb_state`, less the `mmc_handle` only `rpmb_send` reads. -/
structure State where
  key : List UInt8
  writeCounter : Nat
  deriving DecidableEq, Repr

/-- `RPMB_REQ_GET_COUNTER`. -/
def rpmbReqGetCounter : Nat := 0x0002
/-- `RPMB_REQ_DATA_WRITE`. -/
def rpmbReqDataWrite : Nat := 0x0003
/-- `RPMB_REQ_DATA_READ`. -/
def rpmbReqDataRead : Nat := 0x0004
/-- `RPMB_REQ_RESULT_READ`. -/
def rpmbReqResultRead : Nat := 0x0005
/-- `RPMB_RESP_GET_COUNTER`. -/
def rpmbRespGetCounter : Nat := 0x0200
/-- `RPMB_RESP_DATA_WRITE`. -/
def rpmbRespDataWrite : Nat := 0x0300
/-- `RPMB_RESP_DATA_READ`. -/
def rpmbRespDataRead : Nat := 0x0400
/-- `RPMB_RES_OK`. -/
def rpmbResOk : Nat := 0x0000
/-- `RPMB_RES_COUNT_FAILURE`. -/
def rpmbResCountFailure : Nat := 0x0003
/-- `RPMB_RES_ADDR_FAILURE`. -/
def rpmbResAddrFailure : Nat := 0x0004
/-- `ENOENT`. -/
def enoent : Int := 2

/-- Big-endian bytes to a number of `bits` bits: `val = val << 8 | byte[i]`. -/
def getBigEndian (bits : Nat) (bytes : List UInt8) : Nat :=
  bytes.foldl (fun val b => (val * 256 + b.toNat) % 2 ^ bits) 0

/-- `rpmb_get_u16`. -/
def rpmbGetU16 (u16 : List UInt8) : Nat := getBigEndian 16 u16

/-- `rpmb_get_u32`. -/
def rpmbGetU32 (u32 : List UInt8) : Nat := getBigEndian 32 u32

/-- A number as `width` big-endian bytes: `rpmb_u16` and `rpmb_u32`. -/
def bigEndian : Nat → Nat → List UInt8
  | 0, _ => []
  | width + 1, val => bigEndian width (val / 256) ++ [(val % 256).toUInt8]

/-- `rpmb_u16`. -/
def rpmbU16 (val : Nat) : List UInt8 := bigEndian 2 val

/-- `rpmb_u32`. -/
def rpmbU32 (val : Nat) : List UInt8 := bigEndian 4 val

/-- The 284 bytes of a packet from `data` on, which the MAC covers. -/
def macRegion (p : Packet) : List UInt8 :=
  p.data ++ p.nonce ++ p.writeCounter ++ p.address ++ p.blockCount ++ p.result ++ p.reqResp

/-- `rpmb_mac`: `HMAC_Update` of every packet's region in turn. -/
def rpmbMac (hmac : List UInt8 → List UInt8 → Option (List UInt8)) (key : List UInt8)
    (packets : List Packet) : Option (List UInt8) :=
  hmac key (packets.flatMap macRegion)

/-- The loop of `rpmb_check_response` from a packet on: `last` is whether it
is packet `res_count - 1`. -/
def checkPackets (responseType : Nat) (mac nonce : Option (List UInt8)) (addrp : Option Nat) :
    List Packet → Int
  | [] => 0
  | p :: rest =>
    if rpmbGetU16 p.reqResp ≠ responseType then -1
    else if rpmbGetU16 p.result ≠ rpmbResOk then
      if rpmbGetU16 p.result = rpmbResAddrFailure then -enoent else -1
    else if rest = [] ∧ mac.any (· != p.keyMac) then -1
    else if nonce.any (· != p.nonce) then -1
    else if addrp.any (· != rpmbGetU16 p.address) then -1
    else checkPackets responseType mac nonce addrp rest

/-- `rpmb_check_response`; a `none` argument is the C `NULL`. -/
def rpmbCheckResponse (responseType : Nat) (res : List Packet) (mac nonce : Option (List UInt8))
    (addrp : Option Nat) : Int :=
  checkPackets responseType mac nonce addrp res

/-- A packet of zeros: the fields a command leaves unset. -/
def Packet.zero : Packet :=
  ⟨List.replicate 32 0, List.replicate 256 0, List.replicate 16 0, List.replicate 4 0,
    List.replicate 2 0, List.replicate 2 0, List.replicate 2 0, List.replicate 2 0⟩

/-- The command of `rpmb_read`. -/
def readCommand (nonce : List UInt8) (addr : Nat) : Packet :=
  { Packet.zero with nonce := nonce, address := rpmbU16 addr, reqResp := rpmbU16 rpmbReqDataRead }

/-- `rpmb_read(state, buf, addr, count)`: `send` is `rpmb_send`, its result and
the `count` packets it wrote; the result and the caller's buffer after the
call. -/
def rpmbRead (hmac : List UInt8 → List UInt8 → Option (List UInt8)) (state : State)
    (nonce : List UInt8) (send : Packet → Int × List Packet) (buf : List UInt8) (addr : Nat) :
    Int × List UInt8 :=
  let (ret, res) := send (readCommand nonce addr)
  if ret < 0 then (ret, buf)
  else
    match rpmbMac hmac state.key res with
    | none => (-1, buf)
    | some mac =>
      let ret := rpmbCheckResponse rpmbRespDataRead res (some mac) (some nonce) (some addr)
      if ret < 0 then (ret, buf)
      else (0, res.flatMap Packet.data ++ buf.drop (res.flatMap Packet.data).length)

/-- The command of `rpmb_read_counter`. -/
def counterCommand (nonce : List UInt8) : Packet :=
  { Packet.zero with nonce := nonce, reqResp := rpmbU16 rpmbReqGetCounter }

/-- `rpmb_read_counter(state, write_counter)`: the result and the value left in
`*write_counter`, which is stored before the answer is checked. -/
def rpmbReadCounter (hmac : List UInt8 → List UInt8 → Option (List UInt8)) (state : State)
    (nonce : List UInt8) (send : Packet → Int × Packet) (writeCounter : Nat) : Int × Nat :=
  let (ret, res) := send (counterCommand nonce)
  if ret < 0 then (ret, writeCounter)
  else
    match rpmbMac hmac state.key [res] with
    | none => (-1, writeCounter)
    | some mac =>
      let writeCounter := rpmbGetU32 res.writeCounter
      (rpmbCheckResponse rpmbRespGetCounter [res] (some mac) (some nonce) none, writeCounter)

/-- The `count` command packets of `rpmb_write_data` before the MAC: 256
bytes of the buffer each, with the state's write counter. -/
def writeCommands (state : State) (buf : List UInt8) (addr count : Nat) : List Packet :=
  (List.range count).map fun i =>
    { Packet.zero with
      data := (buf.drop (256 * i)).take 256
      writeCounter := rpmbU32 state.writeCounter
      address := rpmbU16 addr
      blockCount := rpmbU16 count
      reqResp := rpmbU16 rpmbReqDataWrite }

/-- The packets `rpmb_write_data` sends: `writeCommands` with `cmdMac`, the
MAC over them all, in the `key_mac` of the last one. -/
def signedWriteCommands (state : State) (buf : List UInt8) (addr count : Nat)
    (cmdMac : List UInt8) : List Packet :=
  (writeCommands state buf addr count).modify (count - 1) fun p => { p with keyMac := cmdMac }

/-- `rpmb_write_data`: the commands carry their MAC on the last packet; the
answer to `RPMB_REQ_RESULT_READ` is checked for `DATA_WRITE` at `addr`. -/
def rpmbWriteData (hmac : List UInt8 → List UInt8 → Option (List UInt8)) (state : State)
    (send : List Packet → Int × Packet) (buf : List UInt8) (addr count : Nat) : Int × State :=
  match rpmbMac hmac state.key (writeCommands state buf addr count) with
  | none => (-1, state)
  | some cmdMac =>
    let (ret, res) := send (signedWriteCommands state buf addr count cmdMac)
    if ret < 0 then (ret, state)
    else
      match rpmbMac hmac state.key [res] with
      | none => (-1, state)
      | some mac =>
        let ret := rpmbCheckResponse rpmbRespDataWrite [res] (some mac) none (some addr)
        if ret < 0 then
          -- clear counter to trigger a re-read
          if rpmbGetU16 res.result = rpmbResCountFailure then (ret, { state with writeCounter := 0 })
          else (ret, state)
        else (0, { state with writeCounter := (state.writeCounter + 1) % 2 ^ 32 })

/-- `rpmb_write`: a zero counter is first read by `rpmb_read_counter` into
`state->write_counter`. -/
def rpmbWrite (hmac : List UInt8 → List UInt8 → Option (List UInt8)) (state : State)
    (nonce : List UInt8) (sendCounter : Packet → Int × Packet) (send : List Packet → Int × Packet)
    (buf : List UInt8) (addr count : Nat) : Int × State :=
  if state.writeCounter = 0 then
    let r := rpmbReadCounter hmac state nonce sendCounter state.writeCounter
    let state := { state with writeCounter := r.2 }
    if r.1 < 0 then (r.1, state) else rpmbWriteData hmac state send buf addr count
  else rpmbWriteData hmac state send buf addr count

/-! ## The check -/

/-- An answer that passes `rpmb_check_response` with MAC `mac`: every packet
has the response type, `RPMB_RES_OK`, and the nonce and address asked for, and
the last one carries the MAC. -/
structure Authentic (responseType : Nat) (res : List Packet) (mac : List UInt8)
    (nonce : Option (List UInt8)) (addrp : Option Nat) : Prop where
  reqResp : ∀ p ∈ res, rpmbGetU16 p.reqResp = responseType
  result : ∀ p ∈ res, rpmbGetU16 p.result = rpmbResOk
  nonce_eq : ∀ p ∈ res, ∀ n ∈ nonce, p.nonce = n
  address : ∀ p ∈ res, ∀ a ∈ addrp, rpmbGetU16 p.address = a
  keyMac : ∀ p ∈ res.getLast?, p.keyMac = mac

section Check

variable {responseType : Nat} {mac : List UInt8} {nonce : Option (List UInt8)} {addrp : Option Nat}

theorem authentic_nil : Authentic responseType [] mac nonce addrp :=
  ⟨by simp, by simp, by simp, by simp, by simp⟩

theorem authentic_cons {p : Packet} {rest : List Packet} :
    Authentic responseType (p :: rest) mac nonce addrp ↔
      rpmbGetU16 p.reqResp = responseType ∧ rpmbGetU16 p.result = rpmbResOk ∧
        (rest = [] → p.keyMac = mac) ∧ (∀ n ∈ nonce, p.nonce = n) ∧
        (∀ a ∈ addrp, rpmbGetU16 p.address = a) ∧ Authentic responseType rest mac nonce addrp := by
  constructor
  · intro h
    refine ⟨h.reqResp p List.mem_cons_self, h.result p List.mem_cons_self, fun hr => ?_,
      h.nonce_eq p List.mem_cons_self, h.address p List.mem_cons_self, ⟨fun q hq => ?_,
      fun q hq => ?_, fun q hq => ?_, fun q hq => ?_, fun q hq => ?_⟩⟩
    · subst hr; exact h.keyMac p (by simp)
    · exact h.reqResp q (List.mem_cons_of_mem _ hq)
    · exact h.result q (List.mem_cons_of_mem _ hq)
    · exact h.nonce_eq q (List.mem_cons_of_mem _ hq)
    · exact h.address q (List.mem_cons_of_mem _ hq)
    · -- the last packet of `rest` is the last of the whole answer
      have hne : rest ≠ [] := by rintro rfl; simp at hq
      exact h.keyMac q (by rw [List.getLast?_cons_of_ne_nil hne]; exact hq)
  · rintro ⟨h1, h2, h3, h4, h5, h6⟩
    refine ⟨fun q hq => ?_, fun q hq => ?_, fun q hq => ?_, fun q hq => ?_, fun q hq => ?_⟩
    · rcases List.mem_cons.mp hq with rfl | hq
      exacts [h1, h6.reqResp q hq]
    · rcases List.mem_cons.mp hq with rfl | hq
      exacts [h2, h6.result q hq]
    · rcases List.mem_cons.mp hq with rfl | hq
      exacts [h4, h6.nonce_eq q hq]
    · rcases List.mem_cons.mp hq with rfl | hq
      exacts [h5, h6.address q hq]
    · by_cases hr : rest = []
      · subst hr
        simp only [List.getLast?_singleton, Option.mem_def, Option.some.injEq] at hq
        subst hq
        exact h3 rfl
      · rw [List.getLast?_cons_of_ne_nil hr] at hq
        exact h6.keyMac q hq

/-- `rpmb_check_response` fails with `-1` or `-ENOENT`, or accepts. -/
theorem checkPackets_le_zero (res : List Packet) :
    checkPackets responseType (some mac) nonce addrp res ≤ 0 := by
  induction res with
  | nil => simp [checkPackets]
  | cons p rest ih =>
    unfold checkPackets
    split_ifs <;> first | exact ih | simp [enoent]

/-- What `rpmb_check_response` accepts. -/
theorem rpmbCheckResponse_eq_zero (res : List Packet) :
    rpmbCheckResponse responseType res (some mac) nonce addrp = 0 ↔
      Authentic responseType res mac nonce addrp := by
  unfold rpmbCheckResponse
  induction res with
  | nil => simp only [checkPackets, authentic_nil]
  | cons p rest ih =>
    rw [authentic_cons]
    unfold checkPackets
    split_ifs with h1 h2 h3 h4 h5 h6
    · simp [h1]
    · simp [enoent, h2]
    · simp [h2]
    · -- the last packet's MAC
      simp only [Option.any_some, bne_iff_ne, ne_eq] at h4
      simp [h4.1, Ne.symm h4.2]
    · obtain ⟨n, rfl⟩ : ∃ n, nonce = some n := Option.isSome_iff_exists.mp (Option.isSome_of_any h5)
      simp only [Option.any_some, bne_iff_ne, ne_eq] at h5
      simp [Ne.symm h5]
    · obtain ⟨a, rfl⟩ : ∃ a, addrp = some a := Option.isSome_iff_exists.mp (Option.isSome_of_any h6)
      simp only [Option.any_some, bne_iff_ne, ne_eq] at h6
      simp [Ne.symm h6]
    · -- every check of this packet passed: the rest decides
      have hmac : rest = [] → p.keyMac = mac := fun hr => by
        simp only [Option.any_some, bne_iff_ne, ne_eq, not_and, not_not] at h4
        exact (h4 hr).symm
      have hnonce : ∀ n ∈ nonce, p.nonce = n := fun n hn => by
        rw [Option.mem_def] at hn
        subst hn
        simp only [Option.any_some, bne_iff_ne, ne_eq, not_not] at h5
        exact h5.symm
      have haddr : ∀ a ∈ addrp, rpmbGetU16 p.address = a := fun a ha => by
        rw [Option.mem_def] at ha
        subst ha
        simp only [Option.any_some, bne_iff_ne, ne_eq, not_not] at h6
        exact h6.symm
      rw [ih]
      exact ⟨fun h => ⟨not_not.mp h1, not_not.mp h2, hmac, hnonce, haddr, h⟩,
        fun h => h.2.2.2.2.2⟩

theorem rpmbCheckResponse_neg_iff (res : List Packet) :
    rpmbCheckResponse responseType res (some mac) nonce addrp < 0 ↔
      ¬ Authentic responseType res mac nonce addrp := by
  rw [← rpmbCheckResponse_eq_zero]
  have := @checkPackets_le_zero responseType mac nonce addrp res
  unfold rpmbCheckResponse
  omega

end Check

/-! ## Reads -/

variable (hmac : List UInt8 → List UInt8 → Option (List UInt8)) (state : State)
  (nonce : List UInt8)

/-- `rpmb_read` fails and leaves the caller's buffer alone, or copies the data of
an answer that passed the MAC, nonce and address checks. -/
theorem rpmbRead_spec (send : Packet → Int × List Packet) (buf : List UInt8) (addr : Nat) :
    let r := rpmbRead hmac state nonce send buf addr
    (r.1 < 0 ∧ r.2 = buf) ∨
      (r.1 = 0 ∧ ∃ res mac, (send (readCommand nonce addr)).2 = res ∧
        rpmbMac hmac state.key res = some mac ∧
        Authentic rpmbRespDataRead res mac (some nonce) (some addr) ∧
        r.2 = res.flatMap Packet.data ++ buf.drop (res.flatMap Packet.data).length) := by
  intro r
  rcases hs : send (readCommand nonce addr) with ⟨ret, res⟩
  have hr : r = if ret < 0 then (ret, buf) else
      match rpmbMac hmac state.key res with
      | none => (-1, buf)
      | some mac =>
        if rpmbCheckResponse rpmbRespDataRead res (some mac) (some nonce) (some addr) < 0 then
          (rpmbCheckResponse rpmbRespDataRead res (some mac) (some nonce) (some addr), buf)
        else (0, res.flatMap Packet.data ++ buf.drop (res.flatMap Packet.data).length) := by
    simp only [r, rpmbRead, hs]
  rw [hr]
  by_cases hret : ret < 0
  · rw [if_pos hret]
    exact .inl ⟨hret, rfl⟩
  rw [if_neg hret]
  cases hm : rpmbMac hmac state.key res with
  | none => exact .inl ⟨show (-1 : Int) < 0 by decide, rfl⟩
  | some mac =>
    dsimp only
    by_cases hc : rpmbCheckResponse rpmbRespDataRead res (some mac) (some nonce) (some addr) < 0
    · rw [if_pos hc]
      exact .inl ⟨hc, rfl⟩
    · -- an accepted answer: its data are copied
      have hauth := not_not.mp ((rpmbCheckResponse_neg_iff res).not.mp hc)
      rw [if_neg hc]
      exact .inr ⟨rfl, res, mac, rfl, hm, hauth, rfl⟩

/-! ## Writes and the write counter -/

/-- `rpmb_write_data` fails, keeping the counter or clearing it when the
answer to the signed commands it sent reports `RPMB_RES_COUNT_FAILURE`, or
counts the write after such an answer passed the MAC and address checks. -/
theorem rpmbWriteData_spec (send : List Packet → Int × Packet) (buf : List UInt8) (addr count : Nat) :
    let r := rpmbWriteData hmac state send buf addr count
    (r.1 < 0 ∧ (r.2 = state ∨ ∃ cmdMac,
        rpmbMac hmac state.key (writeCommands state buf addr count) = some cmdMac ∧
        rpmbGetU16 (send (signedWriteCommands state buf addr count cmdMac)).2.result =
          rpmbResCountFailure ∧
        r.2 = { state with writeCounter := 0 })) ∨
      (r.1 = 0 ∧ r.2 = { state with writeCounter := (state.writeCounter + 1) % 2 ^ 32 } ∧
        ∃ cmdMac mac, rpmbMac hmac state.key (writeCommands state buf addr count) = some cmdMac ∧
          rpmbMac hmac state.key [(send (signedWriteCommands state buf addr count cmdMac)).2] =
            some mac ∧
          Authentic rpmbRespDataWrite [(send (signedWriteCommands state buf addr count cmdMac)).2]
            mac none (some addr)) := by
  intro r
  unfold r rpmbWriteData
  dsimp only
  cases hcm : rpmbMac hmac state.key (writeCommands state buf addr count) with
  | none => exact .inl ⟨show (-1 : Int) < 0 by decide, .inl rfl⟩
  | some cmdMac =>
    dsimp only
    rcases hs : send (signedWriteCommands state buf addr count cmdMac) with ⟨ret, res⟩
    dsimp only
    by_cases hret : ret < 0
    · rw [if_pos hret]
      exact .inl ⟨hret, .inl rfl⟩
    rw [if_neg hret]
    cases hm : rpmbMac hmac state.key [res] with
    | none => exact .inl ⟨show (-1 : Int) < 0 by decide, .inl rfl⟩
    | some mac =>
      dsimp only
      by_cases hc : rpmbCheckResponse rpmbRespDataWrite [res] (some mac) none (some addr) < 0
      · rw [if_pos hc]
        refine .inl ⟨?_, ?_⟩ <;> split_ifs with hcount
        · exact hc
        · exact hc
        · -- the device reported a count failure: the counter is cleared
          exact .inr ⟨cmdMac, rfl, by rw [hs]; exact hcount, rfl⟩
        · exact .inl rfl
      · have hauth := not_not.mp ((rpmbCheckResponse_neg_iff [res]).not.mp hc)
        rw [if_neg hc]
        exact .inr ⟨rfl, rfl, cmdMac, mac, rfl, by rw [hs]; exact hm, by rw [hs]; exact hauth⟩

/-- `rpmb_read_counter` fails before the answer with `*write_counter` as it
was, or stores the answer's counter whether or not the answer then passes its
check. -/
theorem rpmbReadCounter_stores (send : Packet → Int × Packet) (writeCounter : Nat) :
    let r := rpmbReadCounter hmac state nonce send writeCounter
    let res := (send (counterCommand nonce)).2
    (r.1 < 0 ∧ r.2 = writeCounter) ∨
      ∃ mac, rpmbMac hmac state.key [res] = some mac ∧ r.2 = rpmbGetU32 res.writeCounter ∧
        r.1 = rpmbCheckResponse rpmbRespGetCounter [res] (some mac) (some nonce) none := by
  intro r res
  unfold r rpmbReadCounter
  rcases hs : send (counterCommand nonce) with ⟨ret, res'⟩
  have hres : res = res' := by simp only [res, hs]
  dsimp only
  by_cases hret : ret < 0
  · rw [if_pos hret]
    exact .inl ⟨hret, rfl⟩
  rw [if_neg hret]
  cases hm : rpmbMac hmac state.key [res'] with
  | none => exact .inl ⟨show (-1 : Int) < 0 by decide, rfl⟩
  | some mac => exact .inr ⟨mac, by rw [hres]; exact hm, by rw [hres], by rw [hres]⟩

/-- `rpmb_write` on a cleared counter keeps the counter of an answer to
`GET_COUNTER` that fails its check, and fails. -/
theorem rpmbWrite_unchecked_counter (sendCounter : Packet → Int × Packet)
    (send : List Packet → Int × Packet) (buf : List UInt8) (addr count : Nat) {mac : List UInt8}
    (hwc : state.writeCounter = 0) (hret : 0 ≤ (sendCounter (counterCommand nonce)).1)
    (hm : rpmbMac hmac state.key [(sendCounter (counterCommand nonce)).2] = some mac)
    (hbad : ¬ Authentic rpmbRespGetCounter [(sendCounter (counterCommand nonce)).2] mac (some nonce) none) :
    (rpmbWrite hmac state nonce sendCounter send buf addr count).1 < 0 ∧
      (rpmbWrite hmac state nonce sendCounter send buf addr count).2 =
        { state with writeCounter := rpmbGetU32 (sendCounter (counterCommand nonce)).2.writeCounter } := by
  unfold rpmbWrite rpmbReadCounter
  rw [if_pos hwc]
  rcases hs : sendCounter (counterCommand nonce) with ⟨ret, res⟩
  rw [hs] at hret hm hbad
  dsimp only at hret ⊢
  rw [if_neg (not_lt.mpr hret), hm]
  dsimp only
  -- the counter is in the state already when the check fails
  have hc := (rpmbCheckResponse_neg_iff [res]).mpr hbad
  rw [if_pos hc]
  exact ⟨hc, rfl⟩

/-- An answer to `GET_COUNTER` with counter `7` and no valid MAC. -/
def forgedCounter : Packet :=
  { Packet.zero with keyMac := [], writeCounter := rpmbU32 7, reqResp := rpmbU16 rpmbRespGetCounter }

/-- The failing input: `rpmb_write` on a fresh state, the device answering
`GET_COUNTER` with `forgedCounter`; the write fails, the forged counter stays in
the state, and the next `rpmb_write` sends it with its data. -/
theorem rpmbWrite_forged_counter :
    rpmbWrite (fun _ _ => some [1]) ⟨[], 0⟩ [] (fun _ => (0, forgedCounter)) (fun _ => (0, Packet.zero))
        [] 0 1 = (-1, ⟨[], 7⟩) ∧
      ∀ p ∈ writeCommands ⟨[], 7⟩ [] 0 1, p.writeCounter = rpmbU32 7 := by
  refine ⟨?_, fun p hp => ?_⟩
  · have h := rpmbWrite_unchecked_counter (fun _ _ => some [1]) ⟨[], 0⟩ []
      (fun _ => (0, forgedCounter)) (fun _ => (0, Packet.zero)) [] 0 1 rfl le_rfl rfl
      (fun h => absurd (h.keyMac forgedCounter rfl) (by decide))
    exact Prod.ext (by decide) h.2
  · simp only [writeCommands, List.range_one, List.map_cons, List.map_nil, List.mem_singleton] at hp
    rw [hp]

end Rpmb
