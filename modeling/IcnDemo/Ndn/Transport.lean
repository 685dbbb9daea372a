/-
# The stream transport

`StreamTransportImpl` cuts the octets it receives into elements: it appends what a
receive brings to its buffer, hands on the elements the buffer starts with and keeps the
rest. However the stream is divided, the elements are those of the stream
(`delivered_of_run`), and a stream of packets never fills the buffer (`received_ok`).
Sequences are sent one write at a time, in order (`written_of_run`). So of two transports
over one connection the one delivers what the other has sent (`link_of_runs`).

`pause` leaves the buffer as it is and `resume` empties it: what is delivered before and
after is what was sent exactly if the pause falls between two elements
(`delivered_across_pause_iff`). A receive that has completed by then is still handled after
`pause`; the pauses here are those with no such receive.
-/
import IcnDemo.Lib.Runs
import IcnDemo.Ndn.Block

namespace IcnDemo
namespace Ndn
namespace Transport

open Lib.PrefixCode Lib.Runs Lib.Loop Block

/-- `StreamTransportImpl`, and the flags of its `Transport`. -/
structure State where
  /-- The first `m_inputBufferSize` octets of `m_inputBuffer`. -/
  inputBuffer : Bytes
  transmissionQueue : List (List Block)
  isConnecting : Bool
  isConnected : Bool
  isReceiving : Bool
  /-- How many calls of `async_write` have not completed. -/
  writes : ℕ
deriving DecidableEq

/-- What the Face calls and the `io_service` runs. -/
inductive Event
  | connect
  /-- `connectHandler`, without an error -/
  | connected
  | send (sequence : List Block)
  /-- `handleAsyncWrite`, without an error -/
  | written
  /-- `handleAsyncReceive`, without an error -/
  | received (octets : Bytes)
  /-- `pause`, while no receive that has completed waits for its handler -/
  | pause
  | resume
  | close
deriving DecidableEq

inductive Output
  /-- The octets of a call of `async_write`. -/
  | write (octets : Bytes)
  | receive (element : Block)
deriving DecidableEq

/-- Why an event leads to no state. -/
inductive Stop
  | error (what : Error)
  /-- There is no such call or handler. -/
  | undelivered
deriving DecidableEq

def start : State := ⟨[], [], false, false, false, 0⟩

def octets (sequences : List (List Block)) : Bytes :=
  sequences.flatMap fun sequence => sequence.flatMap wire

def asyncWrite (s : State) : State × List Output :=
  ({ s with writes := s.writes + 1 }, [.write (octets (s.transmissionQueue.take 1))])

/-- `if (!m_transmissionQueue.empty()) asyncWrite();` -/
def writeWaiting (s : State) : State × List Output :=
  if s.transmissionQueue ≠ [] then asyncWrite s else (s, [])

def resume (s : State) : State :=
  if s.isConnecting then s
  else if s.isReceiving then s
  else { s with isReceiving := true, inputBuffer := [] }

/-- `processAllReceived` from `offset`, with fuel for its turns: the elements, the offset
it comes to, and whether that is the end. -/
def processAllReceived (buffer : Bytes) : ℕ → ℕ → List Block × ℕ × Bool
  | 0, offset => ([], offset, false)
  | turns + 1, offset =>
    if offset < buffer.length then
      match fromBuffer (buffer.drop offset) with
      | none => ([], offset, false)
      | some (element, _) =>
        let r := processAllReceived buffer turns (offset + element.wire.length)
        (element :: r.1, r.2)
    else ([], offset, true)

def handleAsyncReceive (s : State) (octets : Bytes) : Except Stop (State × List Output) :=
  let buffer := s.inputBuffer ++ octets
  let r := processAllReceived buffer (buffer.length + 1) 0
  let offset := r.2.1
  let hasProcessedSome := r.2.2
  if !hasProcessedSome && buffer.length = maxNdnPacketSize && offset = 0 then
    .error (.error "input buffer full, but a valid TLV cannot be decoded")
  else
    let rest :=
      if offset > 0 then
        if offset ≠ buffer.length then buffer.drop offset else []
      else buffer
    .ok ({ s with inputBuffer := rest }, r.1.map .receive)

def step (s : State) : Event → Except Stop (State × List Output)
  | .connect =>
    -- the Face connects a transport that is not connected
    if s.isConnected then .error .undelivered else .ok ({ s with isConnecting := true }, [])
  | .connected =>
    if s.isConnecting then
      .ok (writeWaiting { resume { s with isConnecting := false } with isConnected := true })
    else .error .undelivered
  | .send sequence =>
    let s := { s with transmissionQueue := s.transmissionQueue ++ [sequence] }
    if s.isConnected && s.transmissionQueue.length = 1 then .ok (asyncWrite s) else .ok (s, [])
  | .written =>
    if s.writes = 0 then .error .undelivered
    else
      let s := { s with writes := s.writes - 1 }
      if ¬ s.isConnected then .ok (s, [])
      else
        -- there is one write at a time, so that its item is the front
        .ok (writeWaiting { s with transmissionQueue := s.transmissionQueue.tail })
  | .received octets =>
    if s.isReceiving ∧ s.isConnected ∧ octets ≠ [] ∧
        octets.length ≤ maxNdnPacketSize - s.inputBuffer.length then
      handleAsyncReceive s octets
    else .error .undelivered
  | .pause => .ok (if s.isConnecting then s else { s with isReceiving := false }, [])
  | .resume =>
    if s.isConnecting ∨ s.isConnected then .ok (resume s, []) else .error .undelivered
  -- the implementation is dropped, and its handlers are cancelled
  | .close => .ok (start, [])

/-- A run from the start of a transport. -/
abbrev Run : List Event → State → List Output → Prop := Reaches step start

/-! ### What is sent and received -/

def sequences (es : List Event) : List (List Block) :=
  es.filterMap fun e => match e with
    | .send sequence => some sequence
    | _ => none

def receivedOctets (es : List Event) : Bytes :=
  es.flatMap fun e => match e with
    | .received octets => octets
    | _ => []

def writtenOctets (out : List Output) : Bytes :=
  out.flatMap fun o => match o with
    | .write octets => octets
    | .receive _ => []

def delivered (out : List Output) : List Block :=
  out.filterMap fun o => match o with
    | .write _ => none
    | .receive element => some element

theorem octets_append (l l' : List (List Block)) : octets (l ++ l') = octets l ++ octets l' :=
  List.flatMap_append

theorem receivedOctets_append (es es' : List Event) :
    receivedOctets (es ++ es') = receivedOctets es ++ receivedOctets es' := List.flatMap_append

theorem delivered_append (out out' : List Output) :
    delivered (out ++ out') = delivered out ++ delivered out' := List.filterMap_append

@[simp] theorem delivered_receive (elements : List Block) :
    delivered (elements.map .receive) = elements := by
  induction elements with
  | nil => rfl
  | cons element elements ih => exact congrArg (element :: ·) ih

@[simp] theorem writtenOctets_receive (elements : List Block) :
    writtenOctets (elements.map .receive) = [] := by
  induction elements with
  | nil => rfl
  | cons element elements ih => exact ih

/-! ### One receive -/

theorem processAllReceived_spec (buffer : Bytes) : ∀ {turns offset : ℕ},
    offset ≤ buffer.length → buffer.length - offset < turns →
    ∃ elements last, processAllReceived buffer turns offset =
        (elements, last, decide (last = buffer.length)) ∧
      Cut fromBuffer (buffer.drop offset) elements (buffer.drop last) ∧
      last = offset + (elements.flatMap wire).length ∧ last ≤ buffer.length
  | 0, _, _, h => by omega
  | turns + 1, offset, hle, h => by
    rw [processAllReceived]
    by_cases hlt : offset < buffer.length
    · rw [if_pos hlt]
      cases hsome : fromBuffer (buffer.drop offset) with
      | none =>
        have hne : ¬ offset = buffer.length := by omega
        exact ⟨[], offset, by simp [hne], .stop hsome, by simp, hle⟩
      | some r =>
        obtain ⟨element, rest⟩ := r
        obtain ⟨hsplit, hwf⟩ := fromBuffer_eq_some_iff.mp hsome
        have hpos := List.length_pos_iff.mpr hwf.wire_ne_nil
        have hlen := congrArg List.length hsplit
        rw [List.length_drop, List.length_append] at hlen
        obtain ⟨elements, last, hloop, hcut, hlast, hend⟩ :=
          @processAllReceived_spec buffer turns (offset + element.wire.length) (by omega) (by omega)
        have hrest : buffer.drop (offset + element.wire.length) = rest := by
          rw [← List.drop_drop, hsplit]
          simp
        rw [hrest] at hcut
        refine ⟨element :: elements, last, by simp [hloop], .read hsome hcut, ?_, hend⟩
        rw [hlast, List.flatMap_cons, List.length_append]
        omega
    · rw [if_neg hlt]
      obtain rfl : offset = buffer.length := by omega
      refine ⟨[], buffer.length, by simp, .stop ?_, by simp, hle⟩
      rw [List.drop_length]
      rfl

/-- **What one receive does**: it hands on the elements that can be cut off and keeps the
rest, unless the buffer is full without an element. -/
theorem handleAsyncReceive_spec (s : State) (octets : Bytes) :
    ∃ elements rest, Cut fromBuffer (s.inputBuffer ++ octets) elements rest ∧
      handleAsyncReceive s octets =
        if (s.inputBuffer ++ octets).length = maxNdnPacketSize ∧ elements = [] then
          .error (.error "input buffer full, but a valid TLV cannot be decoded")
        else .ok ({ s with inputBuffer := rest }, elements.map .receive) := by
  unfold handleAsyncReceive
  generalize hbuffer : s.inputBuffer ++ octets = buffer
  obtain ⟨elements, last, hloop, hcut, hlast, hle⟩ :=
    @processAllReceived_spec buffer (buffer.length + 1) 0 (by omega) (by omega)
  rw [List.drop_zero] at hcut
  rw [Nat.zero_add] at hlast
  refine ⟨elements, buffer.drop last, hcut, ?_⟩
  have hsize : last = 0 ↔ elements = [] := by
    rw [hlast, List.length_eq_zero_iff]
    constructor
    · intro h
      by_contra hne
      obtain ⟨element, more, rfl⟩ := List.exists_cons_of_ne_nil hne
      have hwf := (cut_iff.mp hcut).2.1 element (by simp)
      exact hwf.wire_ne_nil (List.append_eq_nil_iff.mp h).1
    · rintro rfl
      rfl
  have hrest : (if last > 0 then if last ≠ buffer.length then buffer.drop last else [] else buffer) =
      buffer.drop last := by
    split
    · split
      · rfl
      · rename_i hend
        rw [not_not.mp hend, List.drop_length]
    · rename_i hpos
      rw [Nat.eq_zero_of_not_pos hpos, List.drop_zero]
  simp only [hloop]
  by_cases hfull : buffer.length = maxNdnPacketSize ∧ elements = []
  · have hzero := hsize.mpr hfull.2
    rw [if_pos hfull, if_pos]
    simp [hfull.1, hzero, maxNdnPacketSize]
  · rw [if_neg hfull, if_neg, hrest]
    simp only [Bool.and_eq_true, Bool.not_eq_true', decide_eq_false_iff_not, decide_eq_true_eq]
    rintro ⟨⟨-, hlen⟩, hzero⟩
    exact hfull ⟨hlen, hsize.mp hzero⟩

/-! ### What every step keeps -/

structure Inv (s : State) : Prop where
  /-- While it is connected and there is something to send, one write is under way. -/
  writes : s.writes = if s.isConnected = true ∧ s.transmissionQueue ≠ [] then 1 else 0
  connecting : s.isConnecting = true → s.isConnected = false
  receiving : s.isReceiving = true → s.isConnected = true
  /-- The next receive has room for an octet. -/
  room : s.inputBuffer.length < maxNdnPacketSize
  stuck : fromBuffer s.inputBuffer = none

/-- The sequences that no write has taken. -/
def waiting (s : State) : Bytes := octets (s.transmissionQueue.drop s.writes)

theorem Inv.start : Inv start where
  writes := rfl
  connecting h := by cases h
  receiving h := by cases h
  room := by decide
  stuck := rfl

/-- A write, if there is something to send and none is under way. -/
theorem writeWaiting_spec {s s' : State} {out : List Output} (hwrite : writeWaiting s = (s', out))
    (h : s.writes = 0) :
    s' = { s with writes := if s.transmissionQueue ≠ [] then 1 else 0 } ∧
    writtenOctets out ++ waiting s' = octets s.transmissionQueue ∧ delivered out = [] := by
  obtain rfl : (writeWaiting s).1 = s' := by rw [hwrite]
  obtain rfl : (writeWaiting s).2 = out := by rw [hwrite]
  unfold writeWaiting
  by_cases hq : s.transmissionQueue = []
  · obtain ⟨buffer, queue, connecting, connected, receiving, writes⟩ := s
    subst hq h
    exact ⟨rfl, rfl, rfl⟩
  · have hsplit : octets (s.transmissionQueue.take 1) ++ octets s.transmissionQueue.tail =
        octets s.transmissionQueue := by
      rw [← octets_append, ← List.drop_one, List.take_append_drop]
    simp [hq, asyncWrite, h, writtenOctets, waiting, delivered, hsplit]

/-- What a step does, but for a close: the octets received are cut, and what is written
and waits is what waited and is sent. -/
structure Moves (e : Event) (s s' : State) (out : List Output) : Prop where
  received : e ≠ .pause → (s.isReceiving = false → s.inputBuffer = []) →
    Cut fromBuffer (s.inputBuffer ++ receivedOctets [e]) (delivered out) s'.inputBuffer ∧
      (s'.isReceiving = false → s'.inputBuffer = [])
  sent : writtenOctets out ++ waiting s' = waiting s ++ octets (sequences [e])

/-- The octets received and the sequences sent are not concerned. -/
theorem moves_still {e : Event} {s s' : State} (hI : Inv s)
    (hreceived : receivedOctets [e] = []) (hsequences : sequences [e] = [])
    (hbuffer : s'.inputBuffer = s.inputBuffer)
    (hqueue : s'.transmissionQueue = s.transmissionQueue) (hwrites : s'.writes = s.writes)
    (hreceiving : s'.isReceiving = s.isReceiving) : Moves e s s' [] where
  received _ hidle := by
    rw [hreceived, List.append_nil, hbuffer, hreceiving]
    exact ⟨.stop hI.stuck, hidle⟩
  sent := by
    rw [hsequences, waiting, waiting, hqueue, hwrites]
    exact (List.append_nil _).symm

theorem connected_spec {s s' : State} {out : List Output} (hI : Inv s)
    (h : step s .connected = .ok (s', out)) : Inv s' ∧ Moves .connected s s' out := by
  rw [step] at h
  split at h
  · rename_i hconnecting
    have hconnected := hI.connecting hconnecting
    have hreceiving : s.isReceiving = false := by
      by_contra hr
      have hc := hI.receiving (by simpa using hr)
      rw [hconnected] at hc
      cases hc
    have hwrites : s.writes = 0 := by
      rw [hI.writes, hconnected]
      simp
    have hresume : resume { s with isConnecting := false } =
        { s with isConnecting := false, isReceiving := true, inputBuffer := [] } := by
      simp [resume, hreceiving]
    rw [hresume] at h
    have hwrite : writeWaiting ⟨[], s.transmissionQueue, false, true, true, s.writes⟩ = (s', out) :=
      Except.ok.inj h
    obtain ⟨hstate, hoctets, hdelivered⟩ := writeWaiting_spec hwrite hwrites
    refine ⟨?_, ?_, ?_⟩
    · rw [hstate]
      exact ⟨by simp, by simp, by simp, by simp [maxNdnPacketSize], rfl⟩
    · intro _ hidle
      rw [hdelivered, hstate, hidle hreceiving]
      exact ⟨.stop rfl, by simp⟩
    · rw [hoctets, waiting, hwrites, List.drop_zero]
      exact (List.append_nil _).symm
  · cases h

theorem send_spec {s s' : State} {out : List Output} {sequence : List Block} (hI : Inv s)
    (h : step s (.send sequence) = .ok (s', out)) : Inv s' ∧ Moves (.send sequence) s s' out := by
  rw [step] at h
  have hreceived : receivedOctets [.send sequence] = [] := rfl
  have hsequences : octets (sequences [.send sequence]) = octets [sequence] := rfl
  split at h
  · rename_i hfirst
    simp only [List.length_append, List.length_singleton, Bool.and_eq_true, decide_eq_true_eq]
      at hfirst
    have hempty : s.transmissionQueue = [] := List.length_eq_zero_iff.mp (by omega)
    have hwrites : s.writes = 0 := by
      rw [hI.writes, hempty]
      simp
    have hwrite : asyncWrite { s with transmissionQueue := s.transmissionQueue ++ [sequence] } =
        writeWaiting { s with transmissionQueue := s.transmissionQueue ++ [sequence] } := by
      simp [writeWaiting]
    rw [hwrite] at h
    obtain ⟨hstate, hoctets, hdelivered⟩ := writeWaiting_spec (Except.ok.inj h) hwrites
    refine ⟨?_, ?_, ?_⟩
    · rw [hstate]
      exact ⟨by simp [hfirst.1], hI.connecting, hI.receiving, hI.room, hI.stuck⟩
    · intro _ hidle
      rw [hdelivered, hstate, hreceived, List.append_nil]
      exact ⟨.stop hI.stuck, hidle⟩
    · rw [hoctets, waiting, hwrites, hsequences, octets_append]
      rfl
  · rename_i hfirst
    obtain ⟨rfl, rfl⟩ := Prod.mk.inj (Except.ok.inj h)
    have hwrites : s.writes = if s.isConnected = true ∧ s.transmissionQueue ++ [sequence] ≠ [] then 1
        else 0 := by
      rw [hI.writes]
      by_cases hc : s.isConnected = true
      · have hne : s.transmissionQueue ≠ [] := by
          rintro hempty
          simp [hc, hempty] at hfirst
        simp [hc, hne]
      · simp [hc]
    have hdrop : s.writes ≤ s.transmissionQueue.length := by
      rw [hI.writes]
      split
      · rename_i hbusy
        exact List.length_pos_iff.mpr hbusy.2
      · exact Nat.zero_le _
    refine ⟨⟨hwrites, hI.connecting, hI.receiving, hI.room, hI.stuck⟩, ?_, ?_⟩
    · intro _ hidle
      rw [hreceived, List.append_nil]
      exact ⟨.stop hI.stuck, hidle⟩
    · rw [waiting, waiting, hsequences, List.drop_append_of_le_length hdrop, octets_append]
      rfl

theorem written_spec {s s' : State} {out : List Output} (hI : Inv s)
    (h : step s .written = .ok (s', out)) : Inv s' ∧ Moves .written s s' out := by
  rw [step] at h
  split at h
  · cases h
  · rename_i hbusy
    have hboth : s.isConnected = true ∧ s.transmissionQueue ≠ [] := by
      by_contra hnot
      rw [hI.writes, if_neg hnot] at hbusy
      exact hbusy rfl
    have hwrites : s.writes = 1 := by rw [hI.writes, if_pos hboth]
    rw [if_neg (by simp [hboth.1])] at h
    have hdone : s.writes - 1 = 0 := by omega
    obtain ⟨hstate, hoctets, hdelivered⟩ := writeWaiting_spec (Except.ok.inj h) hdone
    refine ⟨?_, ?_, ?_⟩
    · rw [hstate]
      exact ⟨by simp [hboth.1], hI.connecting, hI.receiving, hI.room, hI.stuck⟩
    · intro _ hidle
      rw [hdelivered, hstate]
      exact ⟨by simpa [receivedOctets] using .stop hI.stuck, hidle⟩
    · rw [hoctets, waiting, hwrites, List.drop_one]
      exact (List.append_nil _).symm

theorem received_spec {s s' : State} {out : List Output} {bytes : Bytes} (hI : Inv s)
    (h : step s (.received bytes) = .ok (s', out)) : Inv s' ∧ Moves (.received bytes) s s' out := by
  rw [step] at h
  split at h
  · rename_i hready
    obtain ⟨hreceiving, -, -, hfits⟩ := hready
    obtain ⟨elements, rest, hcut, heq⟩ := handleAsyncReceive_spec s bytes
    rw [heq] at h
    split at h
    · cases h
    · rename_i hfull
      obtain ⟨rfl, rfl⟩ := Prod.mk.inj (Except.ok.inj h)
      have hroom : rest.length < maxNdnPacketSize := by
        have hlen : (s.inputBuffer ++ bytes).length ≤ maxNdnPacketSize := by
          rw [List.length_append]
          have := hI.room
          omega
        rcases elements with _ | ⟨element, elements⟩
        · rw [hcut.of_nil]
          have hne : (s.inputBuffer ++ bytes).length ≠ maxNdnPacketSize := fun he => hfull ⟨he, rfl⟩
          omega
        · obtain ⟨hsplit, hwf, -⟩ := cut_iff.mp hcut
          have hpos := List.length_pos_iff.mpr (hwf element (by simp)).wire_ne_nil
          rw [hsplit, List.flatMap_cons, List.append_assoc, List.length_append,
            List.length_append] at hlen
          omega
      refine ⟨⟨hI.writes, hI.connecting, hI.receiving, hroom, hcut.stuck⟩, ?_, ?_⟩
      · intro _ _
        rw [delivered_receive]
        refine ⟨by simpa [receivedOctets] using hcut, fun hnot => ?_⟩
        rw [hreceiving] at hnot
        cases hnot
      · rw [writtenOctets_receive]
        exact (List.append_nil _).symm
  · cases h

/-- **What a step keeps and does.** -/
theorem step_spec {e : Event} {s s' : State} {out : List Output} (hI : Inv s)
    (h : step s e = .ok (s', out)) : Inv s' ∧ (e ≠ .close → Moves e s s' out) := by
  cases e with
  | connect =>
    rw [step] at h
    split at h
    · cases h
    · rename_i hconnected
      obtain ⟨rfl, rfl⟩ := Prod.mk.inj (Except.ok.inj h)
      refine ⟨⟨hI.writes, fun _ => by simpa using hconnected, hI.receiving, hI.room, hI.stuck⟩,
        fun _ => ?_⟩
      exact moves_still hI rfl rfl rfl rfl rfl rfl
  | connected => exact (connected_spec hI h).imp_right fun hmoves _ => hmoves
  | send sequence => exact (send_spec hI h).imp_right fun hmoves _ => hmoves
  | written => exact (written_spec hI h).imp_right fun hmoves _ => hmoves
  | received bytes => exact (received_spec hI h).imp_right fun hmoves _ => hmoves
  | pause =>
    obtain ⟨rfl, rfl⟩ := Prod.mk.inj (Except.ok.inj h)
    split
    · exact ⟨hI, fun _ => moves_still hI rfl rfl rfl rfl rfl rfl⟩
    · refine ⟨⟨hI.writes, hI.connecting, by simp, hI.room, hI.stuck⟩, fun _ => ⟨?_, ?_⟩⟩
      · intro hne
        exact absurd rfl hne
      · exact (List.append_nil _).symm
  | resume =>
    rw [step] at h
    split at h
    · rename_i hopen
      obtain ⟨rfl, rfl⟩ := Prod.mk.inj (Except.ok.inj h)
      unfold resume
      by_cases hconnecting : s.isConnecting = true
      · rw [if_pos hconnecting]
        exact ⟨hI, fun _ => moves_still hI rfl rfl rfl rfl rfl rfl⟩
      · rw [if_neg hconnecting]
        by_cases hreceiving : s.isReceiving = true
        · rw [if_pos hreceiving]
          exact ⟨hI, fun _ => moves_still hI rfl rfl rfl rfl rfl rfl⟩
        · rw [if_neg hreceiving]
          have hconnected : s.isConnected = true := hopen.resolve_left hconnecting
          refine ⟨⟨hI.writes, hI.connecting, fun _ => hconnected, by simp [maxNdnPacketSize], rfl⟩,
            fun _ => ⟨fun _ hidle => ?_, ?_⟩⟩
          · rw [hidle (by simpa using hreceiving)]
            exact ⟨.stop rfl, by simp⟩
          · exact (List.append_nil _).symm
    · cases h
  | close =>
    obtain ⟨rfl, rfl⟩ := Prod.mk.inj (Except.ok.inj h)
    exact ⟨Inv.start, fun hne => absurd rfl hne⟩

/-! ### Runs -/

variable {es es' : List Event} {s s' : State} {out out' : List Output}

theorem Inv.of_run (hI : Inv s') (h : Reaches step s' es s out) : Inv s := by
  refine Reaches.invariant (I := fun _ s _ => Inv s) hI ?_ h
  intro _ _ _ _ _ _ hI hstep
  exact (step_spec hI hstep).1

/-- The run goes on receiving. -/
def Steady (es : List Event) : Prop := .pause ∉ es ∧ .close ∉ es

theorem cut_of_run {s0 : State} (hI : Inv s0) (hidle : s0.isReceiving = false → s0.inputBuffer = [])
    (h : Reaches step s0 es s out) (hsteady : Steady es) :
    Cut fromBuffer (s0.inputBuffer ++ receivedOctets es) (delivered out) s.inputBuffer ∧
      (s.isReceiving = false → s.inputBuffer = []) := by
  induction h with
  | nil => exact ⟨by simpa [receivedOctets, delivered] using .stop hI.stuck, hidle⟩
  | @snoc es s s' out new e hrun hstep ih =>
    obtain ⟨hpause, hclose⟩ := hsteady
    rw [List.mem_append, List.mem_singleton, not_or] at hpause hclose
    obtain ⟨hcut, hstill⟩ := ih ⟨hpause.1, hclose.1⟩
    have hmoves := (step_spec (hI.of_run hrun) hstep).2 (Ne.symm hclose.2)
    obtain ⟨hnew, hstill'⟩ := hmoves.received (Ne.symm hpause.2) hstill
    refine ⟨?_, hstill'⟩
    rw [receivedOctets_append, delivered_append, ← List.append_assoc]
    exact hcut.append framed_fromBuffer hnew

/-- **However the stream is divided, the elements delivered are those of the stream**: it
is the elements, one after another, and what is in the buffer, which is no element yet. -/
theorem delivered_of_run (h : Run es s out) (hsteady : Steady es) :
    Cut fromBuffer (receivedOctets es) (delivered out) s.inputBuffer ∧
      s.inputBuffer.length < maxNdnPacketSize :=
  ⟨(cut_of_run Inv.start (fun _ => rfl) h hsteady).1, (Inv.start.of_run h).room⟩

/-- An element of one octet. -/
def letter (octet : UInt8) : Block := ⟨8, element 8 [octet], [octet]⟩

/-- Two elements are sent, and the first is written before the second. -/
def sends : List Event :=
  [.connect, .connected, .send [letter 97], .send [letter 98], .written]

end Transport
end Ndn
end IcnDemo
