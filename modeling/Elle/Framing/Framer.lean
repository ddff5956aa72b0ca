import Elle.Lib.Search

/-!
# The framer

`lib/framing.lisp`: a record cursor over a source that answers its bytes in chunks. The framer holds
one chunk, `buf`, and the place in it, `pos`; `fill` replaces the chunk when it is used up, and a record
that goes over the end of a chunk is collected in parts.

A source is what it still answers, one chunk a read, of any lengths.
-/

namespace Elle.Framing

abbrev Bytes := List UInt8

/-! ## Byte primitives -/

/-- `slice` from `start` to `stop`. -/
def slice (xs : Bytes) (start stop : Nat) : Bytes := (xs.take stop).drop start

def windows (n : Nat) (hay : Bytes) : List Bytes :=
  (List.range (hay.length + 1 - n)).map fun i => (hay.drop i).take n

/-- Where `needle` first occurs in `hay`. An empty needle occurs at 0. -/
def findBytes (hay needle : Bytes) : Option Nat :=
  match needle with
  | [] => some 0
  | [one] => hay.findIdx? (· == one)
  | needle =>
    if needle.length > hay.length then none
    else (windows needle.length hay).findIdx? (· == needle)

def bytesFind (hay needle : Bytes) (offset : Nat) : Option Nat :=
  if offset > hay.length then none
  else (findBytes (hay.drop offset) needle).map (offset + ·)

/-! ## State -/

/-- A framer. The chunks are what its source still answers, and `exact` says whether the source
answers exact counts too, as a port does. -/
structure Framer where
  buf : Bytes
  pos : Nat
  eof : Bool
  chunks : List Bytes
  exact : Bool
deriving DecidableEq, Repr

inductive Encoding where
  | text
  | binary
deriving DecidableEq, Repr

/-- What `framing:open` is given. -/
inductive Source where
  | port (encoding : Encoding) (chunks : List Bytes)
  | fiber (chunks : List Bytes)
  | function (chunks : List Bytes)
  | memory (content : Bytes)
  | other
deriving DecidableEq, Repr

structure FramingError where
  reason : String
  message : String
deriving DecidableEq, Repr

def textPort : FramingError :=
  ⟨"text-port", "framing/open: the framer counts bytes; open the port with port/open-bytes or " ++
    ":encoding :binary"⟩

def badSource : FramingError :=
  ⟨"bad-source", "framing/open: the source is not a port, a function, a fiber, bytes or a string"⟩

def makeFramer (chunks : List Bytes) (exact : Bool) (buf : Bytes) : Framer :=
  { buf, pos := 0, eof := false, chunks, exact }

def framingOpen : Source → Except FramingError Framer
  | .port .text _ => .error textPort
  | .port .binary chunks => .ok (makeFramer chunks true [])
  | .fiber chunks => .ok (makeFramer chunks false [])
  | .function chunks => .ok (makeFramer chunks false [])
  | .memory content => .ok (makeFramer [] false content)
  | .other => .error badSource

/-- The next chunk replaces the buffer; `false` at the end of the source. -/
def fill (r : Framer) : Bool × Framer :=
  if r.eof then (false, r)
  else
    match r.chunks with
    | [] => (false, { r with eof := true, buf := [], pos := 0 })
    | chunk :: chunks => (true, { r with buf := chunk, pos := 0, chunks })

theorem fill_eq_true {r r' : Framer} (h : fill r = (true, r')) :
    r.eof = false ∧ ∃ c cs, r.chunks = c :: cs ∧ r' = { r with buf := c, pos := 0, chunks := cs } := by
  unfold fill at h
  split at h
  · cases h
  · next heof =>
    split at h
    · cases h
    · next c cs hc =>
      cases h
      exact ⟨by simpa using heof, c, cs, hc, rfl⟩

theorem fill_chunks_lt {r r' : Framer} (h : fill r = (true, r')) : r'.chunks.length < r.chunks.length := by
  obtain ⟨_, c, cs, hc, rfl⟩ := fill_eq_true h
  rw [hc]
  exact Nat.lt_succ_self _

def joinParts : List Bytes → Bytes
  | [] => []
  | [part] => part
  | parts => parts.flatten

def lastBytes (tail piece : Bytes) (n : Nat) : Bytes :=
  let all := tail ++ piece
  all.drop (all.length - n)

def pushWhen (cond : Prop) [Decidable cond] (parts : List Bytes) (piece : Bytes) : List Bytes :=
  if cond then parts ++ [piece] else parts

/-! ## Records -/

/-- The number of bytes of `tail` that begin a delimiter which `buf` ends. -/
def straddle (d tail buf : Bytes) : Option Nat :=
  if d.length > 1 ∧ tail ≠ [] then
    match bytesFind (tail ++ slice buf 0 (min (d.length - 1) buf.length)) d 0 with
    | some j => if j < tail.length then some (tail.length - j) else none
    | none => none
  else none

/-- The loop of `framing-until`: `parts` holds what the record has so far, and `tail` its last bytes, of
which a delimiter may begin. -/
def untilLoop (d : Bytes) (r : Framer) (parts : List Bytes) (tail : Bytes) : Option Bytes × Framer :=
  match bytesFind r.buf d r.pos with
  | some i =>
    (some (joinParts (pushWhen (r.pos < i) parts (slice r.buf r.pos i))), { r with pos := i + d.length })
  | none =>
    let parts := pushWhen (r.pos < r.buf.length) parts (r.buf.drop r.pos)
    let tail := if d.length > 1 then lastBytes tail (r.buf.drop r.pos) (d.length - 1) else tail
    match _h : fill { r with pos := r.buf.length } with
    | (false, r') =>
      let joined := joinParts parts
      (if joined.isEmpty then none else some joined, r')
    | (true, r') =>
      match straddle d tail r'.buf with
      | some cut =>
        let joined := joinParts parts
        (some (slice joined 0 (joined.length - cut)), { r' with pos := d.length - cut })
      | none => untilLoop d r' parts tail
termination_by r.chunks.length
decreasing_by
  have hlt := fill_chunks_lt _h
  exact hlt

def framingUntil (r : Framer) (delim : Bytes) : Option Bytes × Framer :=
  untilLoop delim r [] []

/-- A record without the carriage return it ends in. -/
def stripCr (rec : Bytes) : Bytes :=
  if rec.length > 0 ∧ rec[rec.length - 1]? = some 13 then slice rec 0 (rec.length - 1) else rec

def framingLine (r : Framer) : Option Bytes × Framer :=
  match framingUntil r [10] with
  | (some rec, r') => if r'.eof then (some rec, r') else (some (stripCr rec), r')
  | (none, r') => (none, r')

/-- The chunks after the first `n` bytes. -/
def dropChunks : Nat → List Bytes → List Bytes
  | _, [] => []
  | n, c :: cs => if n < c.length then c.drop n :: cs else dropChunks (n - c.length) cs

/-- `port/read-exact` on what a port still answers: exactly `n` bytes, or nothing when the port ends
first. -/
def readExact (n : Nat) (chunks : List Bytes) : Option Bytes × List Bytes :=
  if n ≤ chunks.flatten.length then (some (chunks.flatten.take n), dropChunks n chunks)
  else (none, [])

/-- The loop of `framing-exact`, `need` bytes short. -/
def exactLoop (r : Framer) (parts : List Bytes) (need : Nat) : Option Bytes × Framer :=
  match _h : fill r with
  | (false, r') => (none, r')
  | (true, r') =>
    if r'.buf.length ≥ need then
      (some (joinParts (parts ++ [slice r'.buf 0 need])), { r' with pos := need })
    else
      exactLoop { r' with pos := r'.buf.length } (parts ++ [r'.buf]) (need - r'.buf.length)
termination_by r.chunks.length
decreasing_by exact fill_chunks_lt _h

def framingExact (r : Framer) (n : Nat) : Option Bytes × Framer :=
  let have_ := r.buf.length - r.pos
  if have_ ≥ n then (some (slice r.buf r.pos (r.pos + n)), { r with pos := r.pos + n })
  else
    let parts := pushWhen (have_ > 0) [] (r.buf.drop r.pos)
    let r := { r with pos := r.buf.length }
    let need := n - have_
    if r.exact then
      let (more, chunks) := readExact need r.chunks
      (more.map fun more => joinParts (parts ++ [more]), { r with chunks })
    else exactLoop r parts need

def framingUpTo (r : Framer) (n : Nat) : Option Bytes × Framer :=
  let take (r : Framer) : Option Bytes × Framer :=
    let stop := min r.buf.length (r.pos + n)
    (some (slice r.buf r.pos stop), { r with pos := stop })
  if r.pos = r.buf.length then
    match fill r with
    | (false, r') => (none, r')
    | (true, r') => take r'
  else take r

def restLoop (r : Framer) (parts : List Bytes) : List Bytes × Framer :=
  match _h : fill r with
  | (false, r') => (parts, r')
  | (true, r') => restLoop { r' with pos := r'.buf.length } (parts ++ [r'.buf])
termination_by r.chunks.length
decreasing_by exact fill_chunks_lt _h

def framingRest (r : Framer) : Bytes × Framer :=
  let (parts, r') :=
    restLoop { r with pos := r.buf.length } (pushWhen (r.pos < r.buf.length) [] (r.buf.drop r.pos))
  (joinParts parts, r')

end Elle.Framing
