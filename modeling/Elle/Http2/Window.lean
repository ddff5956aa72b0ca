import Mathlib

/-!
# The windows of a receiver

The DATA branch of `read-loop` in `lib/http2/reader.lisp`, with its `strip-padding` and the transition
`:recv-end-stream` of `stream.lisp`. What is received is to be given back by WINDOW_UPDATE frames. The reader
measures a payload without its padding, and looks at the window of the connection only if it knows the stream
(`windows_exact_iff`).
-/

namespace Elle.Http2

inductive StreamState where
  | idle | opened | reservedLocal | reservedRemote | halfClosedLocal | halfClosedRemote | closed
deriving DecidableEq

def recvEndStream : StreamState → Option StreamState
  | .opened => some .halfClosedRemote
  | .halfClosedLocal => some .closed
  | _ => none

/-- The amount pending, with the sums of the increments sent and of the payloads received. -/
structure Window where
  pending : Nat := 0
  sent : Nat := 0
  received : Nat := 0

structure Incoming where
  state : StreamState
  window : Window := {}

structure Reader where
  conn : Window := {}
  streams : Nat → Option Incoming

/-- A DATA frame; lengths have 24 bits. -/
structure DataFrame where
  sid : Nat
  padded : Bool
  endStream : Bool
  payload : List UInt8
  fits : payload.length < 2 ^ 24

def wuThreshold : Nat := 1024 * 1024 / 2

def stripPadding (payload : List UInt8) (padded : Bool) : Option (List UInt8) :=
  if padded then
    match payload with
    | [] => none
    | padLen :: rest =>
      if padLen.toNat ≥ payload.length then none else some (rest.take (rest.length - padLen.toNat))
  else some payload

namespace Window

def receive (f : DataFrame) (payload : List UInt8) (w : Window) : Window :=
  { w with pending := w.pending + payload.length, received := w.received + f.payload.length }

/-- `send-window-update` if `n` bytes are pending. -/
def flushFrom (n : Nat) (w : Window) : Window :=
  if n ≤ w.pending then { w with pending := 0, sent := w.sent + (w.pending &&& 0x7fffffff) } else w

def settle (f : DataFrame) (w : Window) : Window :=
  if f.endStream then (w.flushFrom wuThreshold).flushFrom 1 else w.flushFrom wuThreshold

end Window

/-- The reader after a frame, unless it ends with GOAWAY or an error. -/
def Reader.data (r : Reader) (f : DataFrame) : Option Reader :=
  if f.sid = 0 then none
  else (stripPadding f.payload f.padded).bind fun payload =>
    let conn := r.conn.receive f payload
    match r.streams f.sid with
    | none => some { r with conn }
    -- a stream that the peer has ended is answered by RST_STREAM, and then served as any other
    | some s =>
      (if f.endStream then recvEndStream s.state else some s.state).map fun state =>
        ⟨conn.settle f, Function.update r.streams f.sid
          (if f.endStream ∧ state = .closed then none else some ⟨state, (s.window.receive f payload).settle f⟩)⟩

def start (table : Nat → Option StreamState) : Reader where
  streams sid := (table sid).map (⟨·, {}⟩)

def Window.Exact (w : Window) : Prop := w.sent + w.pending = w.received ∧ w.pending < wuThreshold

def Reader.Exact (r : Reader) : Prop := r.conn.Exact ∧ ∀ sid s, r.streams sid = some s → s.window.Exact

/-- What holds of each frame of a run, with the reader before and after it. -/
def Along (P : Reader → DataFrame → Reader → Prop) : Reader → List DataFrame → Prop
  | _, [] => True
  | r, f :: rest => ∀ r', r.data f = some r' → P r f r' ∧ Along P r' rest

/-- The frame is not padded, and on an unknown stream it brings the connection to no threshold. -/
def Counted (r : Reader) (f : DataFrame) (r' : Reader) : Prop :=
  f.padded = false ∧ (r.streams f.sid = none → r'.conn.pending < wuThreshold)

variable {f : DataFrame} {r r' : Reader} {w : Window} {payload : List UInt8}

theorem stripPadding_length {padded : Bool} {whole : List UInt8} (h : stripPadding whole padded = some payload) :
    payload.length ≤ whole.length ∧ (payload.length = whole.length ↔ padded = false) := by
  cases padded with
  | false => cases h; simp
  | true =>
    match whole with
    | [] => cases h
    | padLen :: rest =>
      simp only [stripPadding, if_true] at h
      split at h <;> cases h
      simp
      omega

theorem Window.flushFrom_spec {n : Nat} (hn : 0 < n) (hw : w.pending < 2 ^ 31) :
    (w.flushFrom n).sent + (w.flushFrom n).pending = w.sent + w.pending ∧
      (w.flushFrom n).received = w.received ∧ (w.flushFrom n).pending ≤ w.pending ∧ (w.flushFrom n).pending < n := by
  have hmask : w.pending &&& 0x7fffffff = w.pending :=
    (Nat.and_two_pow_sub_one_eq_mod w.pending 31).trans (Nat.mod_eq_of_lt hw)
  unfold flushFrom
  split
  · exact ⟨congrArg (w.sent + ·) hmask, rfl, Nat.zero_le _, hn⟩
  · exact ⟨rfl, rfl, Nat.le_refl _, by omega⟩

theorem Window.settle_spec (f : DataFrame) (hw : w.pending < 2 ^ 31) :
    (w.settle f).sent + (w.settle f).pending = w.sent + w.pending ∧ (w.settle f).received = w.received ∧
      (w.settle f).pending < wuThreshold := by
  obtain ⟨hsum, hreceived, hle, hlt⟩ := flushFrom_spec (n := wuThreshold) (by decide) hw
  unfold settle
  split
  · obtain ⟨hsum', hreceived', hle', -⟩ := flushFrom_spec Nat.one_pos (Nat.lt_of_le_of_lt hle hw)
    exact ⟨hsum'.trans hsum, hreceived'.trans hreceived, Nat.lt_of_le_of_lt hle' hlt⟩
  · exact ⟨hsum, hreceived, hlt⟩

theorem Window.Exact.settle_iff (hw : w.Exact) (hle : payload.length ≤ f.payload.length) :
    ((w.receive f payload).settle f).Exact ↔ payload.length = f.payload.length := by
  obtain ⟨hsum, hlt⟩ := hw
  have hfits := f.fits
  have hpending : (w.receive f payload).pending < 2 ^ 31 := by
    simp only [receive, wuThreshold] at hlt ⊢
    omega
  obtain ⟨hbalance, hreceived, hbelow⟩ := settle_spec f hpending
  rw [Exact, and_iff_left hbelow, hbalance, hreceived]
  simp only [receive]
  omega

theorem Reader.Exact.data_iff (hr : r.Exact) (h : r.data f = some r') : r'.Exact ↔ Counted r f r' := by
  obtain ⟨hconn, hstreams⟩ := hr
  unfold data at h
  split at h
  · cases h
  obtain ⟨payload, hstrip, h⟩ := Option.bind_eq_some_iff.1 h
  obtain ⟨hle, hpad⟩ := stripPadding_length hstrip
  rw [Counted, ← hpad]
  cases hs : r.streams f.sid with
  | none =>
    rw [hs] at h
    cases h
    have hsum := hconn.1
    simp only [Exact, Window.Exact, Window.receive, forall_const]
    exact ⟨fun h => ⟨by omega, h.1.2⟩, fun h => ⟨⟨by omega, h.2⟩, hstreams⟩⟩
  | some s =>
    rw [hs] at h
    obtain ⟨state, -, rfl⟩ := Option.map_eq_some_iff.1 h
    refine ⟨fun h => ⟨(hconn.settle_iff hle).1 h.1, nofun⟩, fun h => ⟨(hconn.settle_iff hle).2 h.1, fun sid s' hs' => ?_⟩⟩
    by_cases hsid : sid = f.sid
    · subst hsid
      simp only [Function.update_self] at hs'
      split at hs' <;> cases hs'
      exact ((hstreams _ s hs).settle_iff hle).2 h.1
    · simp only [Function.update_of_ne hsid] at hs'
      exact hstreams sid s' hs'

theorem start_exact (table : Nat → Option StreamState) : (start table).Exact := by
  have hempty : ({} : Window).Exact := ⟨rfl, by decide⟩
  refine ⟨hempty, fun sid s hs => ?_⟩
  obtain ⟨state, -, rfl⟩ := Option.map_eq_some_iff.1 hs
  exact hempty

theorem Reader.Exact.along_iff (hr : r.Exact) (frames : List DataFrame) :
    Along (fun _ _ r' => r'.Exact) r frames ↔ Along Counted r frames := by
  induction frames generalizing r with
  | nil => exact Iff.rfl
  | cons f rest ih =>
    refine forall₂_congr fun r' h => ?_
    simp only [hr.data_iff h, and_congr_right_iff]
    exact fun hf => ih ((hr.data_iff h).2 hf)

/-- After each frame the connection and every stream are given back what was received, but for what is pending
below the threshold, exactly if each frame is counted. -/
theorem windows_exact_iff (table : Nat → Option StreamState) (frames : List DataFrame) :
    Along (fun _ _ r' => r'.Exact) (start table) frames ↔ Along Counted (start table) frames :=
  (start_exact table).along_iff frames

/-- One byte of data and one of padding. -/
theorem padding_kept : ∃ r, (start fun _ => some .opened).data ⟨1, true, false, [1, 7, 0], by decide⟩ = some r ∧
    r.conn.received = 3 ∧ r.conn.sent = 0 ∧ r.conn.pending = 1 := ⟨_, rfl, rfl, rfl, rfl⟩

end Elle.Http2
