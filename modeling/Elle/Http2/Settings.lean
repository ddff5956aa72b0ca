import Elle.Hpack.Coder

/-!
# The settings of the peer

`parse-settings` of `lib/http2/frame.lisp`, `apply-window-update` of `stream.lisp` and `apply-remote-settings` of
`session.lisp`. The parser asks for five bytes and reads six, and a lowered window takes a lock that no flow
has: both are type errors (`settings_exact_iff`).
-/

namespace Elle.Http2

open Hpack List

inductive Reason where
  | flowControlError
  | protocolError

inductive Failure where
  | h2Error (reason : Reason) (code : Option Nat) (message : String)
  | typeError

/-! ## The payload -/

structure Setting where
  id : Nat
  value : Nat

def byte (n : Nat) : UInt8 := .ofNat (n &&& 0xff)

def u16ToBytes (n : Nat) : Bytes := [byte (n >>> 8), byte n]

def u32ToBytes (n : Nat) : Bytes := [byte (n >>> 24), byte (n >>> 16), byte (n >>> 8), byte n]

def readU16 (b₀ b₁ : UInt8) : Nat := b₀.toNat <<< 8 ||| b₁.toNat

def readU32 (b₀ b₁ b₂ b₃ : UInt8) : Nat :=
  (b₀.toNat <<< 24 ||| b₁.toNat <<< 16) ||| (b₂.toNat <<< 8 ||| b₃.toNat)

def makeSettingsPayload (settings : List Setting) : Bytes :=
  settings.foldl (fun acc e => acc ++ u16ToBytes e.id ++ u32ToBytes e.value) []

def parseSettings : Bytes → Except Failure (List Setting)
  | b₀ :: b₁ :: b₂ :: b₃ :: b₄ :: b₅ :: rest =>
    (parseSettings rest).map (⟨readU16 b₀ b₁, readU32 b₂ b₃ b₄ b₅⟩ :: ·)
  -- the loop goes on at five bytes, and the sixth is `nil`
  | [_, _, _, _, _] => .error .typeError
  | _ => .ok []

def records : Bytes → List Setting
  | b₀ :: b₁ :: b₂ :: b₃ :: b₄ :: b₅ :: rest => ⟨readU16 b₀ b₁, readU32 b₂ b₃ b₄ b₅⟩ :: records rest
  | _ => []

theorem parseSettings_eq (p : Bytes) :
    parseSettings p = if p.length % 6 = 5 then .error .typeError else .ok (records p) := by
  fun_induction parseSettings p with
  | case1 _ _ _ _ _ _ rest ih =>
    rw [ih, records]
    simp only [length_cons, Nat.add_mod_right, Nat.add_assoc, Nat.reduceAdd]
    split <;> rfl
  | case2 => rfl
  | case3 p h₆ h₅ =>
    match p with
    | [] | [_] | [_, _] | [_, _, _] | [_, _, _, _] => rfl
    | [_, _, _, _, _] => exact (h₅ _ _ _ _ _ rfl).elim
    | _ :: _ :: _ :: _ :: _ :: _ :: _ => exact (h₆ _ _ _ _ _ _ _ rfl).elim

theorem toNat_byte (n : Nat) : (byte n).toNat = n % 256 := by
  rw [byte, Nat.and_two_pow_sub_one_eq_mod n 8]
  simp

theorem shiftLeft_or {a b i : Nat} (h : b < 2 ^ i) : a <<< i ||| b = a * 2 ^ i + b := by
  rw [← Nat.shiftLeft_add_eq_or_of_lt h, Nat.shiftLeft_eq]

theorem readU16_bytes {n : Nat} (h : n < 2 ^ 16) : readU16 (byte (n >>> 8)) (byte n) = n := by
  simp only [readU16, toNat_byte, Nat.shiftRight_eq_div_pow]
  rw [shiftLeft_or (by omega)]
  omega

theorem readU32_bytes {n : Nat} (h : n < 2 ^ 32) :
    readU32 (byte (n >>> 24)) (byte (n >>> 16)) (byte (n >>> 8)) (byte n) = n := by
  simp only [readU32, toNat_byte, Nat.shiftRight_eq_div_pow]
  rw [shiftLeft_or (a := n / 2 ^ 8 % 256) (by omega), Nat.or_assoc, shiftLeft_or (i := 16) (by omega),
    shiftLeft_or (by omega)]
  omega

/-- What the peer packs is read back. -/
theorem parseSettings_makeSettingsPayload {settings : List Setting}
    (h : ∀ e ∈ settings, e.id < 2 ^ 16 ∧ e.value < 2 ^ 32) :
    parseSettings (makeSettingsPayload settings) = .ok settings := by
  simp only [makeSettingsPayload, append_assoc, ← flatMap_eq_foldl]
  induction settings with
  | nil => rfl
  | cons e rest ih =>
    obtain ⟨he, hrest⟩ := forall_mem_cons.1 h
    replace ih := ih hrest
    rw [flatMap_cons]
    generalize rest.flatMap _ = bytes at ih ⊢
    simp [u16ToBytes, u32ToBytes, parseSettings, ih, readU16_bytes he.1, readU32_bytes he.2, Except.map]

/-! ## The session -/

/-- A flow, with the generation its senders wait on. -/
structure Flow where
  sendWindow : Int
  waiting : Bool
  futexBox : Nat

def Flow.applyWindowUpdate (fc : Flow) (increment : Int) : Except Failure Flow :=
  if fc.sendWindow + increment > 2147483647 then
    .error (.h2Error .flowControlError none "flow control window overflow")
  else .ok { fc with
    sendWindow := fc.sendWindow + increment
    futexBox := if fc.waiting then fc.futexBox + 1 else fc.futexBox }

structure Session where
  headerTableSize : Nat := 4096
  enablePush : Option Nat := none
  maxConcurrentStreams : Nat := 100
  initialWindowSize : Nat := 65535
  maxFrameSize : Nat := 16384
  hpackEncoder : Encoder
  /-- The flows of the streams, in the order of the loop over them. -/
  flows : List Flow

def adjust (delta : Int) (fc : Flow) : Except Failure Flow :=
  if delta > 0 then fc.applyWindowUpdate delta
  -- `s:flow:lock` is `nil`
  else .error .typeError

def applySetting (s : Session) (e : Setting) : Except Failure Session :=
  match e.id with
  | 4 =>
    if e.value > 2147483647 then
      .error (.h2Error .flowControlError (some 3) "INITIAL_WINDOW_SIZE exceeds 2^31-1")
    else
      let delta : Int := e.value - s.initialWindowSize
      let s := { s with initialWindowSize := e.value }
      if delta = 0 then .ok s else (s.flows.mapM (adjust delta)).map fun flows => { s with flows }
  | 5 =>
    if e.value < 16384 ∨ e.value > 16777215 then
      .error (.h2Error .protocolError (some 1) "MAX_FRAME_SIZE outside valid range 16384..16777215")
    else .ok { s with maxFrameSize := e.value }
  | 1 => .ok { s with headerTableSize := e.value, hpackEncoder := setEncoderTableSize s.hpackEncoder e.value }
  | 3 => .ok { s with maxConcurrentStreams := e.value }
  | 2 =>
    if e.value ≠ 0 ∧ e.value ≠ 1 then
      .error (.h2Error .protocolError (some 1) "ENABLE_PUSH must be 0 or 1")
    else .ok { s with enablePush := e.value }
  | _ => .ok s

def applyRemoteSettings (s : Session) (payload : Bytes) : Except Failure Session := do
  (← parseSettings payload).foldlM applySetting s

/-! ## What the settings are to do -/

def Session.Valid (s : Session) : Prop := ∀ fc ∈ s.flows, fc.sendWindow ≤ 2147483647

/-- The setting is to be refused: its value is out of range, or it makes a window too large. -/
def faulty (s : Session) (e : Setting) : Bool :=
  match e.id with
  | 4 => e.value > 2147483647 ||
    s.flows.any fun fc => fc.sendWindow + (e.value - s.initialWindowSize) > 2147483647
  | 5 => e.value < 16384 || e.value > 16777215
  | 2 => e.value > 1
  | _ => false

def newSize (size : Nat) (e : Setting) : Nat := if e.id = 4 then e.value else size

/-- The window moved by `delta`, with the senders that wait woken a number of times. -/
def Flow.moved (delta : Int) (wakes : Nat) (fc : Flow) : Flow :=
  ⟨fc.sendWindow + delta, fc.waiting, if fc.waiting then fc.futexBox + wakes else fc.futexBox⟩

/-- All windows have moved with the window size, and growing windows have woken their senders. -/
def Adjusted (s s' : Session) : Prop :=
  ∃ wakes, s'.flows = s.flows.map (.moved (s'.initialWindowSize - s.initialWindowSize) wakes) ∧
    (s.initialWindowSize < s'.initialWindowSize → 0 < wakes)

/-- What may come of a payload. -/
inductive Exact (s : Session) (p : Bytes) : Except Failure Session → Prop
  | refused {reason code message} (h : p.length % 6 ≠ 0 ∨ (records p).any (faulty s)) :
    Exact s p (.error (.h2Error reason code message))
  | applied {s'} (h : p.length % 6 = 0) (hall : (records p).any (faulty s) = false) (ha : Adjusted s s')
    (hsize : s'.initialWindowSize = (records p).foldl newSize s.initialWindowSize) : Exact s p (.ok s')

def lowers (s : Session) (size : Nat) (e : Setting) : Bool := e.id = 4 && e.value < size && !s.flows.isEmpty

/-- Some setting does, before any that is refused. -/
def shrinks (s : Session) : Nat → List Setting → Bool
  | _, [] => false
  | size, e :: rest => !faulty s e && (lowers s size e || shrinks s (newSize size e) rest)

def Ends (typed refused : Prop) (applied : Session → Prop) : Except Failure Session → Prop
  | .error .typeError => typed
  | .error (.h2Error ..) => refused
  | .ok s => applied s

theorem mapM_adjust {delta : Int} (hd : delta > 0) (fs : List Flow) : fs.mapM (adjust delta) =
    if fs.any fun fc => fc.sendWindow + delta > 2147483647 then
      .error (.h2Error .flowControlError none "flow control window overflow")
    else .ok (fs.map (.moved delta 1)) := by
  induction fs with
  | nil => rfl
  | cons fc fs ih =>
    rw [mapM_cons, ih, adjust, if_pos hd, Flow.applyWindowUpdate, any_cons]
    by_cases hfc : fc.sendWindow + delta > 2147483647
    · simp only [hfc, if_true, decide_true, Bool.true_or]
      rfl
    · simp only [hfc, if_false, decide_false, Bool.false_or]
      cases fs.any _ <;> rfl

section

variable {s s₀ s₁ : Session}

theorem Adjusted.refl (hsize : s₁.initialWindowSize = s.initialWindowSize) (hflows : s₁.flows = s.flows) :
    Adjusted s s₁ :=
  ⟨0, by simp [hsize, hflows, show Flow.moved 0 0 = id by funext; simp [Flow.moved]], by omega⟩

theorem Adjusted.trans (h : Adjusted s₀ s) (h' : Adjusted s s₁) : Adjusted s₀ s₁ := by
  obtain ⟨n, hn, hpos⟩ := h
  obtain ⟨m, hm, hpos'⟩ := h'
  refine ⟨n + m, ?_, by omega⟩
  rw [hm, hn, map_map]
  refine map_congr_left fun fc _ => ?_
  simp only [Flow.moved, Function.comp_apply, Flow.mk.injEq, true_and]
  constructor
  · omega
  · split <;> omega

/-- The windows move with the window size, so that a setting is as faulty later as at first. -/
theorem Adjusted.faulty_eq (h : Adjusted s₀ s) (e : Setting) : faulty s e = faulty s₀ e := by
  obtain ⟨n, hn, -⟩ := h
  have hsum (fc : Flow) : fc.sendWindow + ((s.initialWindowSize : Int) - s₀.initialWindowSize) +
      (e.value - s.initialWindowSize) = fc.sendWindow + (e.value - s₀.initialWindowSize) := by omega
  simp only [faulty, hn, any_map, Function.comp_def, Flow.moved, hsum]

theorem Adjusted.lowers_eq (h : Adjusted s₀ s) (size : Nat) (e : Setting) :
    lowers s size e = lowers s₀ size e := by
  obtain ⟨n, hn, -⟩ := h
  simp [lowers, hn]

def Step (s : Session) (e : Setting) : Except Failure Session → Prop :=
  Ends (faulty s e = false ∧ lowers s s.initialWindowSize e) (faulty s e) fun s' =>
    faulty s e = false ∧ lowers s s.initialWindowSize e = false ∧ s'.Valid ∧ Adjusted s s' ∧
      s'.initialWindowSize = newSize s.initialWindowSize e

theorem step_window (hs : s.Valid) (v : Nat) : Step s ⟨4, v⟩ (applySetting s ⟨4, v⟩) := by
  have hfits (hle : v ≤ s.initialWindowSize) :
      (s.flows.any fun fc => fc.sendWindow + (v - s.initialWindowSize) > 2147483647) = false := by
    rw [any_eq_false]
    intro fc hfc
    have := hs fc hfc
    simp
    omega
  simp only [Step, applySetting, faulty, lowers, newSize, if_true, decide_true, Bool.true_and]
  by_cases hbig : v > 2147483647
  · simp [hbig, Ends]
  rw [if_neg hbig, decide_eq_false hbig, Bool.false_or]
  rcases Nat.lt_trichotomy v s.initialWindowSize with hlt | heq | hgt
  · have hneg : ¬((v : Int) - s.initialWindowSize > 0) := by omega
    rw [hfits (Nat.le_of_lt hlt), if_neg (by omega)]
    cases hflows : s.flows with
    | nil => exact ⟨rfl, by simp, nofun, ⟨0, by simp [hflows], by simp; omega⟩, rfl⟩
    | cons fc fs =>
      rw [mapM_cons, adjust, if_neg hneg]
      exact ⟨rfl, by simp [hlt]⟩
  · rw [hfits (Nat.le_of_eq heq), if_pos (by omega)]
    exact ⟨rfl, by simp [heq], hs, .refl heq rfl, rfl⟩
  · rw [if_neg (by omega), mapM_adjust (by omega)]
    cases hany : s.flows.any _ with
    | true => exact rfl
    | false =>
      refine ⟨rfl, by simp; omega, ?_, ⟨1, rfl, fun _ => Nat.one_pos⟩, rfl⟩
      simpa [Session.Valid, Flow.moved, any_eq_false] using hany

theorem step_applySetting (hs : s.Valid) (e : Setting) : Step s e (applySetting s e) := by
  obtain ⟨id, value⟩ := e
  have hsame {s' : Session} (hf : faulty s ⟨id, value⟩ = false) (h4 : id ≠ 4) (hflows : s'.flows = s.flows)
      (hsize : s'.initialWindowSize = s.initialWindowSize) : Step s ⟨id, value⟩ (.ok s') :=
    ⟨hf, by simp [lowers, h4], by rwa [Session.Valid, hflows], .refl hsize hflows, by simp [hsize, newSize, h4]⟩
  match id with
  | 4 => exact step_window hs value
  | 0 | 1 | 3 | _ + 6 => exact hsame rfl (by simp) rfl rfl
  | 5 | 2 =>
    simp only [applySetting]
    split
    · simpa [Step, Ends, faulty] using by omega
    · exact hsame (by simpa [faulty] using by omega) (by simp) rfl rfl

theorem ends_foldlM (es : List Setting) (h : Adjusted s₀ s) (hs : s.Valid) :
    Ends (shrinks s₀ s.initialWindowSize es)
      (shrinks s₀ s.initialWindowSize es = false ∧ es.any (faulty s₀))
      (fun s' => shrinks s₀ s.initialWindowSize es = false ∧ es.any (faulty s₀) = false ∧ Adjusted s₀ s' ∧
        s'.initialWindowSize = es.foldl newSize s.initialWindowSize) (es.foldlM applySetting s) := by
  induction es generalizing s with
  | nil => exact ⟨rfl, rfl, h, rfl⟩
  | cons e rest ih =>
    have hstep := step_applySetting hs e
    rw [foldlM_cons, shrinks, any_cons]
    simp only [Step, h.faulty_eq, h.lowers_eq] at hstep
    match hr : applySetting s e with
    | .error .typeError =>
      rw [hr] at hstep
      simp [hstep.1, hstep.2, Ends, bind, Except.bind]
    | .error (.h2Error ..) =>
      rw [hr] at hstep
      have hf : faulty s₀ e := hstep
      simp [hf, Ends, bind, Except.bind]
    | .ok s' =>
      rw [hr] at hstep
      obtain ⟨hf, hl, hs', ha, hsize⟩ := hstep
      simpa [hf, hl, ← hsize, bind, Except.bind] using ih (h.trans ha) hs'

/-- Whole records are read and applied exactly unless one lowers the window size of a live stream. What is left
over after them is read too far at five bytes, and else ignored. -/
theorem settings_exact_iff (s : Session) (hs : s.Valid) (p : Bytes) :
    (Exact s p (applyRemoteSettings s p) ↔ p.length % 6 ≠ 5 ∧
      shrinks s s.initialWindowSize (records p) = false ∧
      (p.length % 6 = 0 ∨ (records p).any (faulty s) = true)) ∧
    ∀ settings : List Setting, (∀ e ∈ settings, e.id < 2 ^ 16 ∧ e.value < 2 ^ 32) →
      parseSettings (makeSettingsPayload settings) = .ok settings := by
  refine ⟨?_, fun _ => parseSettings_makeSettingsPayload⟩
  have hends := ends_foldlM (records p) (.refl rfl rfl) hs
  rw [applyRemoteSettings, parseSettings_eq]
  split
  · next h5 => exact iff_of_false nofun fun h => h.1 h5
  next h5 =>
  change Exact s p ((records p).foldlM applySetting s) ↔ _
  match hr : (records p).foldlM applySetting s with
  | .error .typeError =>
    rw [hr] at hends
    exact iff_of_false nofun fun h => Bool.false_ne_true (h.2.1.symm.trans hends)
  | .error (.h2Error ..) =>
    rw [hr] at hends
    exact iff_of_true (.refused (.inr hends.2)) ⟨h5, hends.1, .inr hends.2⟩
  | .ok s' =>
    rw [hr] at hends
    obtain ⟨hshrinks, hany, ha, hsize⟩ := hends
    constructor
    · rintro (_ | ⟨h6⟩)
      exact ⟨h5, hshrinks, .inl h6⟩
    · rintro ⟨-, -, h6 | h6⟩
      · exact .applied h6 hany ha hsize
      · simp [hany] at h6

end

/-- The session with one stream. -/
def live : Session where
  hpackEncoder := makeEncoder 4096 true
  flows := [⟨65535, false, 0⟩]

theorem settings_exact_iff_raised :
    live.Valid ∧ Exact live [0, 4, 0, 1, 0, 0] (applyRemoteSettings live [0, 4, 0, 1, 0, 0]) := by
  have hvalid : live.Valid := by simp [Session.Valid, live]
  exact ⟨hvalid, (settings_exact_iff live hvalid _).1.2 ⟨by decide, by decide, .inl rfl⟩⟩

/-- A size lowered to 16384, a payload of five bytes, and one of one byte. -/
theorem lowered_window_fails :
    applyRemoteSettings live [0, 4, 0, 0, 0x40, 0] = .error .typeError ∧
      parseSettings [0, 4, 0, 0, 0x40] = .error .typeError ∧ applyRemoteSettings live [0] = .ok live :=
  ⟨rfl, rfl, rfl⟩

end Elle.Http2
