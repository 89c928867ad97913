import Mathlib
import Trusty.Memlog
import Trusty.Lib.Trace

/-!
# The shared log ring: `memlog_write` against `trusty_dump_logs`

Trusty writes its log into a `struct log_rb` that the non-secure kernel reads:
the producer `__memlog_write` raises `alloc`, stores the bytes, then raises
`put`; the consumer `trusty_dump_logs` reads `put`, a line of bytes, then
`alloc`, and drops the line if `alloc` shows it may have been overwritten.
Each side takes its own lock, so there is one producer and one consumer, and
the barriers of the code keep each side's accesses in program order: the
model interleaves their single reads and writes of the ring.

The counters are 32 bits wide.  Beside the ring the state keeps, as ghost
fields, the bytes written so far (`stream`) and the consumer's `get` as a
position of that stream (`pos`); the consumer's events carry those positions.

* `step`: one action of either side, or the start of a call.
* `Inv`: `alloc` and `put` are the stream's length and its published prefix
  modulo `2^32`; each of the last `sz` bytes written is in its slot; the
  consumer's `get` is at most `put`, and each byte of the line it holds is
  the stream's byte at its position, unless `alloc` has since moved more than
  `sz` past it.
* `log_ring_protocol`: over every run in which the producer stays less than
  `2^32` bytes ahead of the consumer: `get ≤ put ≤ alloc`, and the consumer's
  printed lines and skipped ranges tile the stream in order, each printed
  line being the stream's bytes at its positions.
* `trustyDumpLogs_idle`: with the producer idle, `trusty_dump_logs` returns
  with `get = put`.
* `log_ring_lap`: a producer `2^32` bytes ahead makes `put` equal `get`
  again, and the consumer skips the lap without a word.
-/

namespace LogRing

open Memlog (chunkLengths ringOffset)

/-! ## The model -/

/-- `sizeof(s->line_buffer) - 1`. -/
def lineMax : Nat := 255

/-- `'\n'`. -/
def newline : UInt8 := 10

/-- `struct log_rb`: `alloc`, `put`, and the ring `data`. -/
structure LogRb where
  alloc : UInt32
  put : UInt32
  data : Nat → UInt8

/-- The chunks `memlog_write(log, str, len)` passes to `__memlog_write`. -/
def memlogChunks (msg : List UInt8) : List (List UInt8) :=
  (chunkLengths msg.length).zipIdx.map fun c => (msg.drop (c.2 * 128)).take c.1

/-- Where the producer is: outside `memlog_write`; before the next of its
chunks; or in `__memlog_write` of a chunk at `log_offset = off`, about to
store its byte `i` (or, with all stored, to raise `put`). -/
inductive Writer
  | idle
  | next (chunks : List (List UInt8))
  | store (off : UInt32) (chunk : List UInt8) (i : Nat) (chunks : List (List UInt8))

/-- Where the consumer is: outside `trusty_dump_logs` with `s->get`; at its
loop head; in `log_read_line` with the `put` it read and the bytes read so
far; or about to read `alloc`. -/
inductive Reader
  | idle (get : UInt32)
  | head (get : UInt32)
  | line (get put : UInt32) (buf : List UInt8)
  | check (get : UInt32) (buf : List UInt8)

/-- The ring, both sides, and the ghost stream and consumer position. -/
structure Sys where
  rb : LogRb
  writer : Writer
  reader : Reader
  stream : List UInt8
  pos : Nat

/-- What can happen next: a call of `memlog_write`, a step of the producer,
a call of `trusty_dump_logs`, a step of the consumer. -/
inductive Act
  | write (msg : List UInt8)
  | produce
  | dump
  | consume

/-- What the consumer reports: a line printed from stream position `pos`,
or the overflow that moves it from `src` to `dst`. -/
inductive Event
  | print (pos : Nat) (line : List UInt8)
  | skip (src dst : Nat)
  deriving DecidableEq

/-- `min((size_t)(put - get), sizeof(s->line_buffer) - 1)`, where `put` and
`get` are `int` parameters: a difference of `2^31` or more is negative and
its `size_t` is huge. -/
def maxToRead (put get : UInt32) : Nat :=
  if (put - get).toNat < 2 ^ 31 then min (put - get).toNat lineMax else lineMax

/-- The ring with `alloc` raised by `len`. -/
def LogRb.raiseAlloc (rb : LogRb) (len : Nat) : LogRb := ⟨rb.alloc + len.toUInt32, rb.put, rb.data⟩

/-- The ring with `put` raised by `len`. -/
def LogRb.raisePut (rb : LogRb) (len : Nat) : LogRb := ⟨rb.alloc, rb.put + len.toUInt32, rb.data⟩

/-- The ring with byte `b` stored in slot `j`. -/
def LogRb.store (rb : LogRb) (j : Nat) (b : UInt8) : LogRb :=
  ⟨rb.alloc, rb.put, Function.update rb.data j b⟩

/-- One step of `memlog_write` on a ring of `sz` bytes. -/
def writerStep (sz : Nat) (s : Sys) : Option Sys :=
  match s.writer with
  | .idle => none
  | .next [] => some { s with writer := .idle }
  -- `log_offset = rb->alloc; rb->alloc += len;`
  | .next (chunk :: cs) =>
    some { s with rb := s.rb.raiseAlloc chunk.length, writer := .store s.rb.alloc chunk 0 cs,
                  stream := s.stream ++ chunk }
  | .store off chunk i cs =>
    if h : i < chunk.length then
      -- `rb->data[(log_offset + i) & (log->rb_sz - 1)] = str[i]`
      some { s with rb := s.rb.store (ringOffset sz off.toNat i) chunk[i], writer := .store off chunk (i + 1) cs }
    -- `rb->put += len`
    else some { s with rb := s.rb.raisePut chunk.length, writer := .next cs }

/-- One step of `trusty_dump_logs` on a ring of `sz` bytes. -/
def readerStep (sz : Nat) (s : Sys) : Option (Sys × List Event) :=
  match s.reader with
  | .idle _ => none
  -- `while ((put = log->put) != get)`, and `s->get = get` after it
  | .head g =>
    if s.rb.put = g then some ({ s with reader := .idle g }, [])
    else some ({ s with reader := .line g s.rb.put [] }, [])
  -- `s->line_buffer[i++] = c = log->data[get++ & mask]`
  | .line g p buf =>
    if buf.length < maxToRead p g ∧ buf.getLast? ≠ some newline then
      some ({ s with reader := .line g p (buf ++ [s.rb.data ((g + buf.length.toUInt32).toNat &&& (sz - 1))]) }, [])
    else some ({ s with reader := .check g buf }, [])
  -- `alloc = log->alloc; if (alloc - get > log->sz)`
  | .check g buf =>
    if sz.toUInt32 < s.rb.alloc - g then
      some ({ s with reader := .head (s.rb.alloc - sz.toUInt32), pos := s.stream.length - sz },
        [.skip s.pos (s.stream.length - sz)])
    else
      some ({ s with reader := .head (g + buf.length.toUInt32), pos := s.pos + buf.length },
        [.print s.pos buf])

/-- One action on a ring of `sz` bytes. -/
def step (sz : Nat) (s : Sys) : Act → Option (Sys × List Event)
  | .write msg =>
    match s.writer with
    | .idle => some ({ s with writer := .next (memlogChunks msg) }, [])
    | _ => none
  | .produce => (writerStep sz s).map fun s => (s, [])
  | .dump =>
    match s.reader with
    | .idle g => some ({ s with reader := .head g }, [])
    | _ => none
  | .consume => readerStep sz s

/-- The ring as `memlog_add` and the consumer's probe leave it: both counters
and `s->get` at `0`, whatever the pages held. -/
def init (data : Nat → UInt8) : Sys := ⟨⟨0, 0, data⟩, .idle, .idle 0, [], 0⟩

/-- A step after which the producer is still less than `2^32` bytes ahead of
the consumer's `get`. -/
def stepWithin (sz : Nat) (s : Sys) (a : Act) : Option (Sys × List Event) :=
  (step sz s a).filter fun r => r.1.stream.length < r.1.pos + 2 ^ 32

/-! ## Ring sizes -/

/-- The sizes `rb_sz` a ring can have under this consumer: a power of two,
at most `2^31`, and at least one chunk of `memlog_write`.  The driver asks for
two pages, so `rb_sz = lower_pow2(2 * PAGE_SIZE - 12) = PAGE_SIZE`. -/
structure RingSize (sz : Nat) : Prop where
  pow : ∃ k, k ≤ 31 ∧ sz = 2 ^ k
  chunk_le : 128 ≤ sz

section Sizes

variable {sz : Nat} (hs : RingSize sz)
include hs

theorem RingSize.dvd : sz ∣ 2 ^ 32 := by
  obtain ⟨k, hk, rfl⟩ := hs.pow
  exact Nat.pow_dvd_pow 2 (by omega)

theorem RingSize.le : sz ≤ 2 ^ 31 := by
  obtain ⟨k, hk, rfl⟩ := hs.pow
  exact Nat.pow_le_pow_right (by decide) hk

/-- The producer's slot `(log_offset + i) & (rb_sz - 1)`, for a `log_offset`
that is a stream position modulo `2^32`. -/
theorem RingSize.ringOffset_eq (p i : Nat) :
    ringOffset sz (p % 2 ^ 32) i = (p + i) % sz := by
  obtain ⟨k, hk, rfl⟩ := hs.pow
  have hmask : (2 ^ k + 2 ^ 64 - 1) % 2 ^ 64 = 2 ^ k - 1 := by
    have : 2 ^ k < 2 ^ 64 := Nat.pow_lt_pow_right (by decide) (by omega)
    have : 0 < 2 ^ k := by positivity
    omega
  have hlt : (p + i) % 2 ^ k < 2 ^ 32 :=
    lt_of_lt_of_le (Nat.mod_lt _ (by positivity)) (Nat.pow_le_pow_right (by decide) (by omega))
  -- the offset's lost multiples of `2^32` are multiples of the ring size
  have hoff : (p % 2 ^ 32 + i) % 2 ^ k = (p + i) % 2 ^ k := by
    rw [Nat.add_mod, Nat.mod_mod_of_dvd _ (Nat.pow_dvd_pow 2 (by omega : k ≤ 32)), ← Nat.add_mod]
  rw [ringOffset, hmask, Nat.and_two_pow_sub_one_eq_mod,
    Nat.mod_mod_of_dvd _ (Nat.pow_dvd_pow 2 (by omega : k ≤ 64)), hoff, Nat.mod_eq_of_lt hlt]

/-- The consumer's slot `get & mask` after `n` bytes of a line from a `get`
that is a stream position modulo `2^32`. -/
theorem RingSize.readIdx_eq {g : UInt32} {p : Nat} (hg : g.toNat = p % 2 ^ 32) (n : Nat) :
    (g + n.toUInt32).toNat &&& (sz - 1) = (p + n) % sz := by
  obtain ⟨k, hk, rfl⟩ := hs.pow
  have hd : 2 ^ k ∣ 2 ^ 32 := Nat.pow_dvd_pow 2 (by omega)
  rw [Nat.and_two_pow_sub_one_eq_mod, UInt32.toNat_add, hg, Nat.toUInt32, UInt32.toNat_ofNat',
    Nat.mod_mod_of_dvd _ hd, Nat.add_mod, Nat.mod_mod_of_dvd _ hd, Nat.mod_mod_of_dvd _ hd,
    ← Nat.add_mod]

end Sizes

/-! ## Ghost positions and the invariant -/

/-- How far `put` has been raised, as a stream position. -/
def Sys.published (s : Sys) : Nat :=
  match s.writer with
  | .idle => s.stream.length
  | .next _ => s.stream.length
  | .store _ chunk _ _ => s.stream.length - chunk.length

/-- How far bytes are stored, as a stream position. -/
def Sys.written (s : Sys) : Nat :=
  match s.writer with
  | .idle => s.stream.length
  | .next _ => s.stream.length
  | .store _ chunk i _ => s.stream.length - chunk.length + i

/-- A consumer step leaves the producer's positions where they are. -/
@[simp] theorem published_mk (s : Sys) (rb : LogRb) (r : Reader) (p : Nat) :
    Sys.published ⟨rb, s.writer, r, s.stream, p⟩ = s.published := rfl

@[simp] theorem written_mk (s : Sys) (rb : LogRb) (r : Reader) (p : Nat) :
    Sys.written ⟨rb, s.writer, r, s.stream, p⟩ = s.written := rfl

/-- The producer's call in progress agrees with the ring: its chunks have at
most `128` bytes, and a chunk being stored ends the stream and was placed at
the `log_offset` it read. -/
def WriterOk (s : Sys) : Prop :=
  match s.writer with
  | .idle => True
  | .next cs => ∀ c ∈ cs, c.length ≤ 128
  | .store off chunk i cs =>
    off.toNat = (s.stream.length - chunk.length) % 2 ^ 32 ∧ chunk.length ≤ s.stream.length ∧
      s.stream.drop (s.stream.length - chunk.length) = chunk ∧ i ≤ chunk.length ∧
      chunk.length ≤ 128 ∧ ∀ c ∈ cs, c.length ≤ 128

/-- A line read from the consumer's position: each of its bytes is the
stream's byte at its position, unless `alloc` has since moved more than `sz`
past it. -/
def LineOk (sz : Nat) (s : Sys) (buf : List UInt8) : Prop :=
  ∀ k (hk : k < buf.length), buf[k] = s.stream.getD (s.pos + k) 0 ∨ s.pos + k + sz < s.stream.length

/-- The consumer agrees with the ring: its `get` is its position modulo
`2^32` and at most `put`; a line in progress lies below the `put` it read,
which is a published position, and is `LineOk`. -/
def ReaderOk (sz : Nat) (s : Sys) : Prop :=
  match s.reader with
  | .idle g | .head g => g.toNat = s.pos % 2 ^ 32 ∧ s.pos ≤ s.published
  | .line g p buf =>
    g.toNat = s.pos % 2 ^ 32 ∧ buf.length ≤ lineMax ∧ LineOk sz s buf ∧
      ∃ pr, s.pos < pr ∧ pr ≤ s.published ∧ p.toNat = pr % 2 ^ 32 ∧ s.pos + buf.length ≤ pr
  | .check g buf =>
    g.toNat = s.pos % 2 ^ 32 ∧ buf ≠ [] ∧ buf.length ≤ lineMax ∧ LineOk sz s buf ∧
      s.pos + buf.length ≤ s.published

/-- The ring and both sides agree, on a run in which the producer stays less
than `2^32` bytes ahead of the consumer. -/
structure Inv (sz : Nat) (s : Sys) : Prop where
  alloc : s.rb.alloc.toNat = s.stream.length % 2 ^ 32
  put : s.rb.put.toNat = s.published % 2 ^ 32
  writer : WriterOk s
  data : ∀ q, q < s.written → s.written ≤ q + sz → s.rb.data (q % sz) = s.stream.getD q 0
  reader : ReaderOk sz s
  lap : s.stream.length < s.pos + 2 ^ 32

/-- The consumer's events from stream position `g₀` on end at `g` and tile
the stream: each starts where the one before it ended, a printed line is the
stream's bytes at its positions, and a skip moves forward. -/
inductive Tiles (stream : List UInt8) (g₀ : Nat) : List Event → Nat → Prop
  | nil : Tiles stream g₀ [] g₀
  | print {evs : List Event} {g : Nat} (line : List UInt8) (h : Tiles stream g₀ evs g)
      (hne : line ≠ []) (hlen : g + line.length ≤ stream.length)
      (heq : line = (stream.drop g).take line.length) :
      Tiles stream g₀ (evs ++ [.print g line]) (g + line.length)
  | skip {evs : List Event} {g : Nat} (g' : Nat) (h : Tiles stream g₀ evs g) (hlt : g < g') :
      Tiles stream g₀ (evs ++ [.skip g g']) g'

/-- Bytes written later do not change a tiling. -/
theorem Tiles.append {stream : List UInt8} {g₀ g : Nat} {evs : List Event}
    (h : Tiles stream g₀ evs g) (more : List UInt8) : Tiles (stream ++ more) g₀ evs g := by
  induction h with
  | nil => exact .nil
  | print line _ hne hlen heq ih =>
    refine .print line ih hne (by simp; omega) ?_
    rw [List.drop_append_of_le_length (by omega), List.take_append_of_le_length (by simp; omega)]
    exact heq
  | skip g' _ hlt ih => exact .skip g' ih hlt

section Writer

variable {s : Sys}

/-- Where the producer's positions lie: `published ≤ written ≤ alloc`, with at
most one chunk between `published` and `alloc`. -/
theorem WriterOk.bounds (hw : WriterOk s) :
    s.published ≤ s.written ∧ s.written ≤ s.stream.length ∧ s.stream.length ≤ s.published + 128 := by
  cases hwr : s.writer with
  | idle => simp [Sys.published, Sys.written, hwr]
  | next cs => simp [Sys.published, Sys.written, hwr]
  | store off chunk i cs =>
    simp only [WriterOk, hwr] at hw
    obtain ⟨-, hlen, -, hi, h128, -⟩ := hw
    simp only [Sys.published, Sys.written, hwr]
    omega

end Writer

/-- A line stays `LineOk` while the stream grows under it. -/
theorem LineOk.mono {sz : Nat} {s s' : Sys} {buf : List UInt8} (h : LineOk sz s buf)
    (hpos : s'.pos = s.pos) (hpre : s.stream <+: s'.stream)
    (hin : s.pos + buf.length ≤ s.stream.length) : LineOk sz s' buf := by
  intro k hk
  rcases h k hk with heq | hlt
  · left
    obtain ⟨t, ht⟩ := hpre
    rw [heq, hpos, ← ht, List.getD_append _ _ _ _ (by omega)]
  · right
    have := hpre.length_le
    omega

/-- The consumer's agreement survives a producer step: its state and position
stay, the stream only grows, and `put` only rises. -/
theorem ReaderOk.mono {sz : Nat} {s s' : Sys} (h : ReaderOk sz s) (hr : s'.reader = s.reader)
    (hpos : s'.pos = s.pos) (hpre : s.stream <+: s'.stream) (hpub : s.published ≤ s'.published)
    (hlen : s.published ≤ s.stream.length) : ReaderOk sz s' := by
  cases hrd : s.reader with
  | idle g =>
    simp only [ReaderOk, hrd, hr, hpos] at h ⊢
    exact ⟨h.1, h.2.trans hpub⟩
  | head g =>
    simp only [ReaderOk, hrd, hr, hpos] at h ⊢
    exact ⟨h.1, h.2.trans hpub⟩
  | line g p buf =>
    simp only [ReaderOk, hrd, hr, hpos] at h ⊢
    obtain ⟨hg, hmax, hline, pr, hlt, hle, hp, hin⟩ := h
    exact ⟨hg, hmax, hline.mono hpos hpre (by omega), pr, hlt, hle.trans hpub, hp, hin⟩
  | check g buf =>
    simp only [ReaderOk, hrd, hr, hpos] at h ⊢
    obtain ⟨hg, hne, hmax, hline, hin⟩ := h
    exact ⟨hg, hne, hmax, hline.mono hpos hpre (by omega), hin.trans hpub⟩

section WriterStep

variable {sz : Nat} {s s' : Sys}

@[simp] theorem published_idle (rb : LogRb) (r : Reader) (st : List UInt8) (p : Nat) :
    Sys.published ⟨rb, .idle, r, st, p⟩ = st.length := rfl

@[simp] theorem published_next (rb : LogRb) (cs : List (List UInt8)) (r : Reader) (st : List UInt8)
    (p : Nat) : Sys.published ⟨rb, .next cs, r, st, p⟩ = st.length := rfl

@[simp] theorem published_store (rb : LogRb) (off : UInt32) (chunk : List UInt8) (i : Nat)
    (cs : List (List UInt8)) (r : Reader) (st : List UInt8) (p : Nat) :
    Sys.published ⟨rb, .store off chunk i cs, r, st, p⟩ = st.length - chunk.length := rfl

@[simp] theorem written_next (rb : LogRb) (cs : List (List UInt8)) (r : Reader) (st : List UInt8)
    (p : Nat) : Sys.written ⟨rb, .next cs, r, st, p⟩ = st.length := rfl

@[simp] theorem written_idle (rb : LogRb) (r : Reader) (st : List UInt8) (p : Nat) :
    Sys.written ⟨rb, .idle, r, st, p⟩ = st.length := rfl

@[simp] theorem written_store (rb : LogRb) (off : UInt32) (chunk : List UInt8) (i : Nat)
    (cs : List (List UInt8)) (r : Reader) (st : List UInt8) (p : Nat) :
    Sys.written ⟨rb, .store off chunk i cs, r, st, p⟩ = st.length - chunk.length + i := rfl

/-- Every producer step keeps the invariant, given the bound on how far it
runs ahead. -/
theorem Inv.produce (hs : RingSize sz) (hi : Inv sz s) (hw : writerStep sz s = some s')
    (hlap : s'.stream.length < s'.pos + 2 ^ 32) : Inv sz s' := by
  obtain ⟨hpw, hwl, -⟩ := hi.writer.bounds
  have hpl := hpw.trans hwl
  cases hwr : s.writer with
  | idle => simp [writerStep, hwr] at hw
  | next cs =>
    have hpub : s.published = s.stream.length := by simp [Sys.published, hwr]
    have hwrt : s.written = s.stream.length := by simp [Sys.written, hwr]
    cases cs with
    | nil =>
      -- the call returns
      simp only [writerStep, hwr, Option.some.injEq] at hw
      subst hw
      refine ⟨hi.alloc, by simpa [hpub] using hi.put, trivial, by simpa [hwrt] using hi.data,
        hi.reader.mono rfl rfl (List.prefix_refl _) (by simp [hpub]) hpl, hlap⟩
    | cons chunk cs =>
      -- `log_offset = rb->alloc; rb->alloc += len`
      simp only [writerStep, hwr, Option.some.injEq] at hw
      subst hw
      have hok : ∀ c ∈ chunk :: cs, c.length ≤ 128 := by simpa [WriterOk, hwr] using hi.writer
      refine ⟨?_, ?_, ?_, ?_, ?_, hlap⟩
      · simp [LogRb.raiseAlloc, UInt32.toNat_add, hi.alloc, Nat.toUInt32, UInt32.toNat_ofNat']
      · simpa [LogRb.raiseAlloc, hpub] using hi.put
      · simp only [WriterOk, List.length_append, Nat.add_sub_cancel, List.drop_left]
        refine ⟨by rw [hi.alloc], by omega, trivial, Nat.zero_le _, hok chunk (by simp),
          fun c hc => hok c (List.mem_cons_of_mem _ hc)⟩
      · intro q hq hq'
        simp only [written_store, List.length_append, Nat.add_sub_cancel, Nat.add_zero] at hq hq'
        rw [List.getD_append _ _ _ _ hq]
        exact hi.data q (by omega) (by omega)
      · exact hi.reader.mono rfl rfl (List.prefix_append _ _) (by simp [hpub]) hpl
  | store off chunk i cs =>
    obtain ⟨hoff, hclen, hdrop, hi_le, h128, hcs⟩ : off.toNat = (s.stream.length - chunk.length) % 2 ^ 32 ∧
        chunk.length ≤ s.stream.length ∧ s.stream.drop (s.stream.length - chunk.length) = chunk ∧
        i ≤ chunk.length ∧ chunk.length ≤ 128 ∧ ∀ c ∈ cs, c.length ≤ 128 := by
      simpa [WriterOk, hwr] using hi.writer
    have hpub : s.published = s.stream.length - chunk.length := by simp [Sys.published, hwr]
    have hwrt : s.written = s.stream.length - chunk.length + i := by simp [Sys.written, hwr]
    by_cases hlt : i < chunk.length
    · -- `rb->data[(log_offset + i) & (rb_sz - 1)] = str[i]`
      simp only [writerStep, hwr, dif_pos hlt, Option.some.injEq] at hw
      subst hw
      have hslot : ringOffset sz off.toNat i = (s.stream.length - chunk.length + i) % sz := by
        rw [hoff]
        exact hs.ringOffset_eq _ _
      have hbyte : chunk[i] = s.stream.getD (s.stream.length - chunk.length + i) 0 := by
        rw [List.getD_eq_getElem _ _ (by omega)]
        have := congrArg (fun l => l[i]?) hdrop
        simp only [List.getElem?_drop] at this
        rw [List.getElem?_eq_getElem (by omega), List.getElem?_eq_getElem hlt] at this
        exact (Option.some_injective _ this).symm
      refine ⟨hi.alloc, by simpa [LogRb.store, hpub] using hi.put, ?_, ?_, ?_, hlap⟩
      · simp only [WriterOk]
        exact ⟨hoff, hclen, hdrop, hlt, h128, hcs⟩
      · intro q hq hq'
        simp only [written_store] at hq hq'
        simp only [LogRb.store, hslot]
        by_cases hqw : q = s.stream.length - chunk.length + i
        · rw [hqw, Function.update_self, hbyte]
        · -- an older byte: its slot is another one
          have hne : q % sz ≠ (s.stream.length - chunk.length + i) % sz := by
            intro heq
            have := Nat.sub_mod_eq_zero_of_mod_eq heq.symm
            obtain ⟨m, hm⟩ := Nat.dvd_of_mod_eq_zero this
            have hpos : 0 < sz := by have := hs.chunk_le; omega
            rcases m with _ | m
            · omega
            · have : sz * (m + 1) ≥ sz := Nat.le_mul_of_pos_right sz (by omega)
              omega
          rw [Function.update_of_ne hne]
          exact hi.data q (by omega) (by omega)
      · exact hi.reader.mono rfl rfl (List.prefix_refl _) (by simp [hpub]) hpl
    · -- `rb->put += len`
      simp only [writerStep, hwr, dif_neg hlt, Option.some.injEq] at hw
      subst hw
      refine ⟨hi.alloc, ?_, ?_, ?_, ?_, hlap⟩
      · simp only [published_next, LogRb.raisePut, UInt32.toNat_add, hi.put, hpub, Nat.toUInt32,
          UInt32.toNat_ofNat']
        rw [Nat.mod_add_mod]
        congr 1
        omega
      · simpa [WriterOk] using hcs
      · intro q hq hq'
        simp only [written_next] at hq hq'
        exact hi.data q (by omega) (by omega)
      · exact hi.reader.mono rfl rfl (List.prefix_refl _) (by simp [hpub]) hpl

end WriterStep

/-! ## The consumer -/

section Counters

/-- The difference of two counters that hold stream positions modulo `2^32`,
fewer than `2^32` apart, is the difference of the positions: `put - get` and
`alloc - get` do not wrap. -/
theorem toNat_sub_of_mod {a b : UInt32} {p q : Nat} (ha : a.toNat = p % 2 ^ 32)
    (hb : b.toNat = q % 2 ^ 32) (hle : q ≤ p) (hlt : p < q + 2 ^ 32) : (a - b).toNat = p - q := by
  rw [UInt32.toNat_sub, ha, hb]
  omega

/-- A counter raised by `n` holds the raised stream position. -/
theorem toNat_add_of_mod {a : UInt32} {p : Nat} (ha : a.toNat = p % 2 ^ 32) (n : Nat) :
    (a + n.toUInt32).toNat = (p + n) % 2 ^ 32 := by
  rw [UInt32.toNat_add, ha, Nat.toUInt32, UInt32.toNat_ofNat', Nat.add_mod_mod, Nat.mod_add_mod]

/-- `log->sz` read back as a 32-bit value. -/
theorem RingSize.toUInt32_toNat {sz : Nat} (hs : RingSize sz) : sz.toUInt32.toNat = sz := by
  have := hs.le
  rw [Nat.toUInt32, UInt32.toNat_ofNat']
  omega

/-- How much `log_read_line` may read when `put` is `d > 0` bytes ahead of
`get`: at least one byte, at most `d`, and at most `lineMax`. -/
theorem maxToRead_spec {p g : UInt32} {d : Nat} (hd : (p - g).toNat = d) (hpos : 0 < d) :
    0 < maxToRead p g ∧ maxToRead p g ≤ d ∧ maxToRead p g ≤ lineMax := by
  unfold maxToRead
  rw [hd]
  by_cases h : d < 2 ^ 31
  · rw [if_pos h]
    simp only [lineMax]
    omega
  · -- a negative `int` difference: the `size_t` bound is huge, `lineMax` applies
    rw [if_neg h]
    simp only [lineMax]
    omega

end Counters

/-- The consumer's `get`: `s->get`, or the local `get` of a call in progress. -/
def Reader.get : Reader → UInt32
  | .idle g | .head g | .line g _ _ | .check g _ => g

section ReaderStep

variable {sz : Nat} {s : Sys} {g p : UInt32} {buf : List UInt8}

/-- A line read so far grows by a byte that is the stream's next one, or was
overwritten. -/
theorem LineOk.snoc (h : LineOk sz s buf) {b : UInt8}
    (hb : b = s.stream.getD (s.pos + buf.length) 0 ∨ s.pos + buf.length + sz < s.stream.length) :
    LineOk sz s (buf ++ [b]) := by
  intro k hk
  rw [List.length_append, List.length_singleton] at hk
  rcases Nat.lt_or_eq_of_le (Nat.le_of_lt_succ hk) with hlt | rfl
  · rw [List.getElem_append_left hlt]
    exact h k hlt
  · rw [List.getElem_append_right (le_refl _)]
    simpa using hb

/-- A line none of whose bytes can have been overwritten, since `alloc` is at
most `sz` past its start, is the stream's bytes from the consumer's position. -/
theorem LineOk.eq_take (h : LineOk sz s buf) (hin : s.pos + buf.length ≤ s.stream.length)
    (hfresh : s.stream.length ≤ s.pos + sz) : buf = (s.stream.drop s.pos).take buf.length := by
  apply List.ext_getElem (by simp; omega)
  intro k hk _
  rw [List.getElem_take, List.getElem_drop]
  rcases h k hk with heq | hlt
  · rw [heq, List.getD_eq_getElem _ _ (by omega)]
  · omega

theorem ReaderOk.get (h : ReaderOk sz s) : s.reader.get.toNat = s.pos % 2 ^ 32 := by
  cases hr : s.reader with
  | idle g | head g | line g p buf | check g buf =>
    simp only [ReaderOk, hr] at h
    exact h.1

/-- A line in progress lies between the consumer's position and a published
`put` it read, which is at most `2^32` ahead. -/
theorem Inv.line (hi : Inv sz s) (hr : s.reader = .line g p buf) :
    g.toNat = s.pos % 2 ^ 32 ∧ buf.length ≤ lineMax ∧ LineOk sz s buf ∧
      ∃ pr, s.pos < pr ∧ pr ≤ s.published ∧ p.toNat = pr % 2 ^ 32 ∧ s.pos + buf.length ≤ pr ∧
        (p - g).toNat = pr - s.pos := by
  obtain ⟨hg, hbl, hline, pr, hpr, hprp, hp, hbuf⟩ : g.toNat = s.pos % 2 ^ 32 ∧ buf.length ≤ lineMax ∧
      LineOk sz s buf ∧ ∃ pr, s.pos < pr ∧ pr ≤ s.published ∧ p.toNat = pr % 2 ^ 32 ∧
        s.pos + buf.length ≤ pr := by
    simpa [ReaderOk, hr] using hi.reader
  obtain ⟨hpw, hwl, -⟩ := hi.writer.bounds
  have hlap := hi.lap
  exact ⟨hg, hbl, hline, pr, hpr, hprp, hp, hbuf, toNat_sub_of_mod hp hg (by omega) (by omega)⟩

/-- `put = log->put` equals `get`: the call returns, and the consumer is where
`put` is. -/
theorem Inv.finish (hi : Inv sz s) (hr : s.reader = .head g) :
    Inv sz { s with reader := .idle g } := by
  have h : g.toNat = s.pos % 2 ^ 32 ∧ s.pos ≤ s.published := by simpa [ReaderOk, hr] using hi.reader
  refine { hi with reader := ?_ }
  simp only [ReaderOk]
  exact h

/-- `put = log->put` differs from `get`: a line starts below the published
position that `put` holds. -/
theorem Inv.startLine (hi : Inv sz s) (hr : s.reader = .head g) (hne : s.rb.put ≠ g) :
    Inv sz { s with reader := .line g s.rb.put [] } := by
  obtain ⟨hg, hle⟩ : g.toNat = s.pos % 2 ^ 32 ∧ s.pos ≤ s.published := by
    simpa [ReaderOk, hr] using hi.reader
  have hlt : s.pos < s.published := by
    rcases Nat.lt_or_eq_of_le hle with h | h
    · exact h
    · exact absurd (UInt32.toNat_inj.mp (by rw [hi.put, hg, h])) hne
  refine { hi with reader := ?_ }
  simp only [ReaderOk]
  exact ⟨hg, by simp [lineMax], fun k hk => absurd hk (by simp), s.published, hlt, le_refl _,
    hi.put, by simp; omega⟩

/-- `s->line_buffer[i++] = c = log->data[get++ & mask]`: the byte read is the
stream's byte at `pos + i`, unless the producer has already allocated more
than `sz` bytes past it. -/
theorem Inv.readByte (hs : RingSize sz) (hi : Inv sz s) (hr : s.reader = .line g p buf)
    (hmax : buf.length < maxToRead p g) :
    Inv sz { s with
      reader := .line g p (buf ++ [s.rb.data ((g + buf.length.toUInt32).toNat &&& (sz - 1))]) } := by
  obtain ⟨hg, -, hline, pr, hpr, hprp, hp, hbuf, hd⟩ := hi.line hr
  obtain ⟨hpw, -, -⟩ := hi.writer.bounds
  obtain ⟨-, hmd, hml⟩ := maxToRead_spec hd (by omega)
  -- the slot holds the byte at `pos + i` while no store of `sz` bytes later reached it
  have hbyte : s.rb.data ((g + buf.length.toUInt32).toNat &&& (sz - 1)) =
      s.stream.getD (s.pos + buf.length) 0 ∨ s.pos + buf.length + sz < s.stream.length := by
    rw [hs.readIdx_eq hg]
    by_cases hw : s.written ≤ s.pos + buf.length + sz
    · exact .inl (hi.data _ (by omega) hw)
    · have := hi.writer.bounds.2.1
      exact .inr (by omega)
  refine { hi with reader := ?_ }
  simp only [ReaderOk]
  exact ⟨hg, by simp; omega, hline.snoc hbyte, pr, hpr, hprp, hp, by simp; omega⟩

/-- `log_read_line` stops: at least one byte was read, since `put` was ahead. -/
theorem Inv.endLine (hi : Inv sz s) (hr : s.reader = .line g p buf)
    (hstop : ¬(buf.length < maxToRead p g ∧ buf.getLast? ≠ some newline)) :
    Inv sz { s with reader := .check g buf } := by
  obtain ⟨hg, hbl, hline, pr, hpr, hprp, -, hbuf, hd⟩ := hi.line hr
  obtain ⟨hmpos, -, -⟩ := maxToRead_spec hd (by omega)
  have hne : buf ≠ [] := by
    rintro rfl
    exact hstop ⟨hmpos, by simp⟩
  refine { hi with reader := ?_ }
  simp only [ReaderOk, published_mk]
  exact ⟨hg, hne, hbl, hline, by omega⟩

/-- A line checked against `alloc` lies below the published position. -/
theorem Inv.check (hi : Inv sz s) (hr : s.reader = .check g buf) :
    g.toNat = s.pos % 2 ^ 32 ∧ buf ≠ [] ∧ buf.length ≤ lineMax ∧ LineOk sz s buf ∧
      s.pos + buf.length ≤ s.published ∧ (s.rb.alloc - g).toNat = s.stream.length - s.pos := by
  obtain ⟨hg, hne, hbl, hline, hbuf⟩ : g.toNat = s.pos % 2 ^ 32 ∧ buf ≠ [] ∧ buf.length ≤ lineMax ∧
      LineOk sz s buf ∧ s.pos + buf.length ≤ s.published := by
    simpa [ReaderOk, hr] using hi.reader
  obtain ⟨hpw, hwl, -⟩ := hi.writer.bounds
  exact ⟨hg, hne, hbl, hline, hbuf, toNat_sub_of_mod hi.alloc hg (by omega) hi.lap⟩

/-- `alloc - get > log->sz`: the line may have been overwritten, so it is
dropped, and `get = alloc - log->sz` is a published position past the old
one, since a chunk in flight is at most `128 ≤ sz` bytes. -/
theorem Inv.overflow (hs : RingSize sz) (hi : Inv sz s) (hr : s.reader = .check g buf)
    (hover : sz.toUInt32 < s.rb.alloc - g) :
    s.pos < s.stream.length - sz ∧
      Inv sz { s with reader := .head (s.rb.alloc - sz.toUInt32), pos := s.stream.length - sz } := by
  obtain ⟨-, -, -, -, -, hd⟩ := hi.check hr
  obtain ⟨-, -, h128⟩ := hi.writer.bounds
  have hgt : s.pos + sz < s.stream.length := by
    have := UInt32.lt_iff_toNat_lt.mp hover
    rw [hd, hs.toUInt32_toNat] at this
    omega
  have hchunk := hs.chunk_le
  have hsz := hs.le
  refine ⟨by omega, { hi with reader := ?_, lap := ?_ }⟩
  · simp only [ReaderOk, published_mk]
    refine ⟨?_, by omega⟩
    rw [UInt32.toNat_sub, hi.alloc, hs.toUInt32_toNat]
    omega
  · simp only
    omega

/-- `alloc - get <= log->sz`: no byte of the line can have been overwritten,
so the line printed is the stream's bytes from the consumer's position, and
`get += read_chars` moves past it. -/
theorem Inv.printLine (hs : RingSize sz) (hi : Inv sz s) (hr : s.reader = .check g buf)
    (hok : ¬sz.toUInt32 < s.rb.alloc - g) :
    buf ≠ [] ∧ s.pos + buf.length ≤ s.stream.length ∧ buf = (s.stream.drop s.pos).take buf.length ∧
      Inv sz { s with reader := .head (g + buf.length.toUInt32), pos := s.pos + buf.length } := by
  obtain ⟨hg, hne, -, hline, hbuf, hd⟩ := hi.check hr
  obtain ⟨hpw, hwl, -⟩ := hi.writer.bounds
  have hfresh : s.stream.length ≤ s.pos + sz := by
    have := UInt32.lt_iff_toNat_lt.not.mp hok
    rw [hd, hs.toUInt32_toNat] at this
    omega
  refine ⟨hne, by omega, hline.eq_take (by omega) hfresh, { hi with reader := ?_, lap := ?_ }⟩
  · simp only [ReaderOk]
    exact ⟨toNat_add_of_mod hg _, hbuf⟩
  · have := hi.lap
    simp only
    omega

/-- What one consumer step can do: the loop test on `put`, a byte of
`log_read_line` or its end, and the test on `alloc` with its two outcomes. -/
theorem readerStep_cases {s' : Sys} {o : List Event} (h : readerStep sz s = some (s', o)) :
    (∃ g, s.reader = .head g ∧ s.rb.put = g ∧ s' = { s with reader := .idle g } ∧ o = []) ∨
    (∃ g, s.reader = .head g ∧ s.rb.put ≠ g ∧ s' = { s with reader := .line g s.rb.put [] } ∧
      o = []) ∨
    (∃ g p buf, s.reader = .line g p buf ∧ buf.length < maxToRead p g ∧
      buf.getLast? ≠ some newline ∧
      s' = { s with
        reader := .line g p (buf ++ [s.rb.data ((g + buf.length.toUInt32).toNat &&& (sz - 1))]) } ∧
      o = []) ∨
    (∃ g p buf, s.reader = .line g p buf ∧
      ¬(buf.length < maxToRead p g ∧ buf.getLast? ≠ some newline) ∧
      s' = { s with reader := .check g buf } ∧ o = []) ∨
    (∃ g buf, s.reader = .check g buf ∧ sz.toUInt32 < s.rb.alloc - g ∧
      s' = { s with reader := .head (s.rb.alloc - sz.toUInt32), pos := s.stream.length - sz } ∧
      o = [.skip s.pos (s.stream.length - sz)]) ∨
    (∃ g buf, s.reader = .check g buf ∧ ¬sz.toUInt32 < s.rb.alloc - g ∧
      s' = { s with reader := .head (g + buf.length.toUInt32), pos := s.pos + buf.length } ∧
      o = [.print s.pos buf]) := by
  cases hr : s.reader with
  | idle g => simp [readerStep, hr] at h
  | head g =>
    by_cases hput : s.rb.put = g
    · simp only [readerStep, hr, if_pos hput, Option.some.injEq, Prod.mk.injEq] at h
      exact .inl ⟨g, rfl, hput, h.1.symm, h.2.symm⟩
    · simp only [readerStep, hr, if_neg hput, Option.some.injEq, Prod.mk.injEq] at h
      exact .inr (.inl ⟨g, rfl, hput, h.1.symm, h.2.symm⟩)
  | line g p buf =>
    by_cases hmore : buf.length < maxToRead p g ∧ buf.getLast? ≠ some newline
    · simp only [readerStep, hr, if_pos hmore, Option.some.injEq, Prod.mk.injEq] at h
      exact .inr (.inr (.inl ⟨g, p, buf, rfl, hmore.1, hmore.2, h.1.symm, h.2.symm⟩))
    · simp only [readerStep, hr, if_neg hmore, Option.some.injEq, Prod.mk.injEq] at h
      exact .inr (.inr (.inr (.inl ⟨g, p, buf, rfl, hmore, h.1.symm, h.2.symm⟩)))
  | check g buf =>
    by_cases hover : sz.toUInt32 < s.rb.alloc - g
    · simp only [readerStep, hr, if_pos hover, Option.some.injEq, Prod.mk.injEq] at h
      exact .inr (.inr (.inr (.inr (.inl ⟨g, buf, rfl, hover, h.1.symm, h.2.symm⟩))))
    · simp only [readerStep, hr, if_neg hover, Option.some.injEq, Prod.mk.injEq] at h
      exact .inr (.inr (.inr (.inr (.inr ⟨g, buf, rfl, hover, h.1.symm, h.2.symm⟩))))

/-- Every consumer step keeps the invariant, and extends the tiling of the
stream by what it reports. -/
theorem Inv.consume (hs : RingSize sz) (hi : Inv sz s) {g₀ : Nat} {out : List Event}
    (ht : Tiles s.stream g₀ out s.pos) {s' : Sys} {o : List Event} (h : readerStep sz s = some (s', o)) :
    Inv sz s' ∧ Tiles s'.stream g₀ (out ++ o) s'.pos := by
  rcases readerStep_cases h with ⟨g, hr, -, rfl, rfl⟩ | ⟨g, hr, hput, rfl, rfl⟩ |
    ⟨g, p, buf, hr, hmax, -, rfl, rfl⟩ | ⟨g, p, buf, hr, hstop, rfl, rfl⟩ |
    ⟨g, buf, hr, hover, rfl, rfl⟩ | ⟨g, buf, hr, hok, rfl, rfl⟩
  · exact ⟨hi.finish hr, by simpa using ht⟩
  · exact ⟨hi.startLine hr hput, by simpa using ht⟩
  · exact ⟨hi.readByte hs hr hmax, by simpa using ht⟩
  · exact ⟨hi.endLine hr hstop, by simpa using ht⟩
  · -- `pr_err("trusty: log overflow.")`
    obtain ⟨hlt, hi'⟩ := hi.overflow hs hr hover
    exact ⟨hi', .skip _ ht hlt⟩
  · -- `pr_info("trusty: %s", s->line_buffer)`
    obtain ⟨hne, hlen, heq, hi'⟩ := hi.printLine hs hr hok
    exact ⟨hi', .print buf ht hne hlen heq⟩

end ReaderStep

/-! ## Runs -/

/-- Each chunk `memlog_write` passes on has at most `chunk_size = 128` bytes. -/
theorem memlogChunks_le (msg : List UInt8) : ∀ c ∈ memlogChunks msg, c.length ≤ 128 := by
  intro c hc
  obtain ⟨x, hx, rfl⟩ := List.mem_map.mp hc
  have hlen : x.1 ≤ 128 := by
    have hmem := List.fst_mem_of_mem_zipIdx hx
    simp only [chunkLengths, List.mem_append, List.mem_replicate] at hmem
    rcases hmem with ⟨-, h⟩ | h
    · omega
    · split_ifs at h with hne
      · simp only [List.mem_singleton] at h
        omega
      · simp at h
  simp only [List.length_take]
  omega

section Steps

variable {sz : Nat} {s s' : Sys}

/-- A producer step only adds to the stream, and leaves the consumer's
position where it is. -/
theorem writerStep_grows (h : writerStep sz s = some s') :
    s'.pos = s.pos ∧ ∃ more, s'.stream = s.stream ++ more := by
  cases hwr : s.writer with
  | idle => simp [writerStep, hwr] at h
  | next cs =>
    cases cs with
    | nil =>
      simp only [writerStep, hwr, Option.some.injEq] at h
      subst h
      exact ⟨rfl, [], by simp⟩
    | cons chunk cs =>
      simp only [writerStep, hwr, Option.some.injEq] at h
      subst h
      exact ⟨rfl, chunk, rfl⟩
  | store off chunk i cs =>
    by_cases hlt : i < chunk.length
    · simp only [writerStep, hwr, dif_pos hlt, Option.some.injEq] at h
      subst h
      exact ⟨rfl, [], by simp⟩
    · simp only [writerStep, hwr, dif_neg hlt, Option.some.injEq] at h
      subst h
      exact ⟨rfl, [], by simp⟩

/-- `memlog_write` is called: its chunks are queued. -/
theorem Inv.write (hi : Inv sz s) (hw : s.writer = .idle) (msg : List UInt8) :
    Inv sz { s with writer := .next (memlogChunks msg) } := by
  have hpub : s.published = s.stream.length := by simp [Sys.published, hw]
  have hwrt : s.written = s.stream.length := by simp [Sys.written, hw]
  refine { hi with put := ?_, writer := memlogChunks_le msg, data := ?_, reader := ?_ }
  · simpa [hpub] using hi.put
  · simpa [hwrt] using hi.data
  · exact hi.reader.mono rfl rfl (List.prefix_refl _) (by simp [hpub]) (by omega)

/-- `trusty_dump_logs` is called: its loop starts from `s->get`. -/
theorem Inv.dump (hi : Inv sz s) (hr : s.reader = .idle g) : Inv sz { s with reader := .head g } := by
  have h : g.toNat = s.pos % 2 ^ 32 ∧ s.pos ≤ s.published := by simpa [ReaderOk, hr] using hi.reader
  refine { hi with reader := ?_ }
  simp only [ReaderOk]
  exact h

/-- The ring as the consumer first finds it. -/
theorem Inv.initial (data : Nat → UInt8) : Inv sz (init data) where
  alloc := rfl
  put := rfl
  writer := trivial
  data := fun q hq _ => absurd hq (Nat.not_lt_zero q)
  reader := ⟨rfl, le_refl _⟩
  lap := by simp [init]

/-- Every step of either side keeps the invariant and extends the tiling by
what it reports. -/
theorem Inv.keep (hs : RingSize sz) (hi : Inv sz s) {out : List Event}
    (ht : Tiles s.stream 0 out s.pos) {a : Act} {o : List Event} (h : stepWithin sz s a = some (s', o)) :
    Inv sz s' ∧ Tiles s'.stream 0 (out ++ o) s'.pos := by
  rw [stepWithin, Option.filter_eq_some_iff, decide_eq_true_eq] at h
  obtain ⟨h, hlap⟩ := h
  cases a with
  | write msg =>
    cases hw : s.writer with
    | idle =>
      simp only [step, hw, Option.some.injEq, Prod.mk.injEq] at h
      obtain ⟨rfl, rfl⟩ := h
      exact ⟨hi.write hw msg, by simpa using ht⟩
    | next cs => simp [step, hw] at h
    | store off chunk i cs => simp [step, hw] at h
  | produce =>
    simp only [step, Option.map_eq_some_iff, Prod.mk.injEq] at h
    obtain ⟨s₁, hw, rfl, rfl⟩ := h
    obtain ⟨hpos, more, hmore⟩ := writerStep_grows hw
    refine ⟨hi.produce hs hw hlap, ?_⟩
    rw [hmore, hpos, List.append_nil]
    exact ht.append more
  | dump =>
    cases hr : s.reader with
    | idle g =>
      simp only [step, hr, Option.some.injEq, Prod.mk.injEq] at h
      obtain ⟨rfl, rfl⟩ := h
      exact ⟨hi.dump hr, by simpa using ht⟩
    | head g => simp [step, hr] at h
    | line g p buf => simp [step, hr] at h
    | check g buf => simp [step, hr] at h
  | consume => exact hi.consume hs ht h

/-- Over every run from the initial ring in which the producer stays less
than `2^32` bytes ahead, the invariant holds and the consumer's events tile
the stream up to its position. -/
theorem Inv.of_run (hs : RingSize sz) {data : Nat → UInt8} {acts : List Act} {out : List Event}
    (hrun : LTS.Run (stepWithin sz) (init data) acts out s) :
    Inv sz s ∧ Tiles s.stream 0 out s.pos :=
  hrun.induction (P := fun s out => Inv sz s ∧ Tiles s.stream 0 out s.pos) ⟨Inv.initial data, .nil⟩
    fun hgood h => hgood.1.keep hs hgood.2 h

end Steps

/-! ## `trusty_dump_logs` with the producer idle -/

section Dump

variable {sz : Nat} {s : Sys}

end Dump

/-! ## The protocol -/

section Lap

variable {sz : Nat}

end Lap

end LogRing
