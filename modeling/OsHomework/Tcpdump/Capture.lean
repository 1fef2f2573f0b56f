import Mathlib.Data.List.Induction
import OsHomework.Lib.Records

/-!
# Tcpdump — the capture buffer of `custom_tcpdump.c`

`packet_handler` copies every packet that `pcap_loop` delivers, header and data, behind the packets
it has stored, unless the count limit is reached or the packet does not fit. The loop of
`print_captured_packets` in `main.c` gets the buffer and the returned count, and finds the packets
again with the `caplen` of their headers. The counters have the widths of the source: `size_t` is
`UInt64`, `int` is `Int32` with the wrap of two's complement.

* **`Buffered.packetHandler`** — what a delivered packet does to the buffer and the counters.
* **`captureCorrect_iff`** — capture and walk agree exactly as long as the count of stored packets
  fits in an `int`; only a capture without a limit can leave that range.
-/

namespace OsHomework.Tcpdump

open Records

/-! ## Packets

A packet is a record in the sense of the library of records: a header of fixed size that says how
long the body is. What has to be shown for this format is that a header is read back as it was
copied. -/

/-- `struct pcap_pkthdr`; the two `long`s of `ts` are kept as their bits. -/
structure PcapPkthdr where
  tvSec : UInt64
  tvUsec : UInt64
  caplen : UInt32
  len : UInt32
  deriving DecidableEq

/-- `sizeof(struct pcap_pkthdr)` -/
def sizeofPkthdr : Nat := 24

/-- The bytes of a header in memory. -/
def PcapPkthdr.encode (h : PcapPkthdr) : List UInt8 :=
  leBytes 8 h.tvSec.toNat ++ leBytes 8 h.tvUsec.toNat ++ leBytes 4 h.caplen.toNat ++
    leBytes 4 h.len.toNat

/-- The header at a pointer. -/
def PcapPkthdr.load (mem : Nat → UInt8) (ptr : Nat) : PcapPkthdr where
  tvSec := UInt64.ofNat (ByteMem.load mem ptr 8)
  tvUsec := UInt64.ofNat (ByteMem.load mem (ptr + 8) 8)
  caplen := UInt32.ofNat (ByteMem.load mem (ptr + 16) 4)
  len := UInt32.ofNat (ByteMem.load mem (ptr + 20) 4)

theorem PcapPkthdr.length_encode (h : PcapPkthdr) : h.encode.length = sizeofPkthdr := by
  simp only [PcapPkthdr.encode, List.length_append, length_leBytes, sizeofPkthdr]

/-- A header is read back as it was copied. -/
theorem PcapPkthdr.load_encode (mem : Nat → UInt8) (ptr : Nat) (h : PcapPkthdr)
    (hholds : Holds mem ptr h.encode) : PcapPkthdr.load mem ptr = h := by
  simp only [PcapPkthdr.encode, holds_append, List.length_append, length_leBytes] at hholds
  obtain ⟨⟨⟨hsec, husec⟩, hcaplen⟩, hlen⟩ := hholds
  have hsec_lt : h.tvSec.toNat < 256 ^ 8 := h.tvSec.toNat_lt
  have husec_lt : h.tvUsec.toNat < 256 ^ 8 := h.tvUsec.toNat_lt
  have hcaplen_lt : h.caplen.toNat < 256 ^ 4 := h.caplen.toNat_lt
  have hlen_lt : h.len.toNat < 256 ^ 4 := h.len.toNat_lt
  rw [PcapPkthdr.load, hsec.load_eq, husec.load_eq, hcaplen.load_eq, hlen.load_eq,
    Nat.mod_eq_of_lt hsec_lt, Nat.mod_eq_of_lt husec_lt, Nat.mod_eq_of_lt hcaplen_lt,
    Nat.mod_eq_of_lt hlen_lt]
  simp only [UInt64.ofNat_toNat, UInt32.ofNat_toNat]

def pcapFormat : Format PcapPkthdr where
  size := sizeofPkthdr
  encode := PcapPkthdr.encode
  length_encode := PcapPkthdr.length_encode
  load := PcapPkthdr.load
  load_encode := PcapPkthdr.load_encode
  bodyLen := fun h => h.caplen.toNat

/-- A delivered packet: its header and the `caplen` bytes at `packet`. -/
abbrev Packet := Record pcapFormat

/-! ## `packet_handler`

The sums are those of `size_t` and may wrap, as may the count. What the handler does not store it
drops; `pcap_loop` goes on with the next packet. -/

/-- `capture_ctx_t`, with the bytes of the buffer in place of its address. -/
structure CaptureCtx where
  buffer : Nat → UInt8
  bufferSize : UInt64
  offset : UInt64
  maxPackets : Int32
  packetCount : Int32

/-- The context `custom_tcpdump_capture` sets up. -/
def CaptureCtx.init (buffer : Nat → UInt8) (bufferSize : UInt64) (maxPackets : Int32) :
    CaptureCtx where
  buffer := buffer
  bufferSize := bufferSize
  offset := 0
  maxPackets := maxPackets
  packetCount := 0

def packetHandler (ctx : CaptureCtx) (packet : Packet) : CaptureCtx :=
  -- `if (ctx->max_packets > 0 && ctx->packet_count >= ctx->max_packets) return`
  if ctx.maxPackets > 0 ∧ ctx.packetCount ≥ ctx.maxPackets then ctx
  else if ctx.offset + UInt64.ofNat sizeofPkthdr + packet.header.caplen.toUInt64 > ctx.bufferSize
  then ctx
  else
    let buffer := copy ctx.buffer ctx.offset.toNat packet.header.encode
    let offset := ctx.offset + UInt64.ofNat sizeofPkthdr
    { ctx with
      buffer := copy buffer offset.toNat packet.body
      offset := offset + packet.header.caplen.toUInt64
      packetCount := ctx.packetCount + 1 }

/-- The context after `pcap_loop` has delivered the packets. -/
def capture (buffer : Nat → UInt8) (bufferSize : UInt64) (maxPackets : Int32)
    (delivered : List Packet) : CaptureCtx :=
  delivered.foldl packetHandler (CaptureCtx.init buffer bufferSize maxPackets)

/-! ## `print_captured_packets`

The loop has no bound but the count it is given. It takes each next position from the header it has
just read, so it stays in the buffer only if the count is right. -/

/-- What the loop prints of one packet, with the pointer it took the header from: the number, the
header and the first bytes of the data. -/
structure Printed where
  number : Nat
  ptr : Nat
  header : PcapPkthdr
  firstBytes : List UInt8

/-- The bytes read for the packet: those of the header, then those of the data it prints. -/
def Printed.Touches (q : Printed) (x : Nat) : Prop :=
  q.ptr ≤ x ∧ x < q.ptr + sizeofPkthdr + q.firstBytes.length

/-- The loop from its `i`-th iteration on, with `n` iterations to go. -/
def printLoop (buffer : Nat → UInt8) : Nat → Nat → Nat → List Printed
  | _, _, 0 => []
  | ptr, i, n + 1 =>
    let header := PcapPkthdr.load buffer ptr
    let data := ptr + sizeofPkthdr
    { number := i + 1
      ptr := ptr
      header := header
      -- `j < 16 && j < header->caplen`
      firstBytes := read buffer data (min 16 header.caplen.toNat) } ::
      printLoop buffer (data + header.caplen.toNat) (i + 1) n

/-- A `packetCount` that is not positive prints no packet. -/
def printCapturedPackets (buffer : Nat → UInt8) (packetCount : Int32) : List Printed :=
  printLoop buffer 0 0 packetCount.toInt.toNat

/-- The data of a printed packet. -/
def Printed.data (buffer : Nat → UInt8) (q : Printed) : List UInt8 :=
  read buffer (q.ptr + sizeofPkthdr) q.header.caplen.toNat

/-- The loop visits the records of the buffer. -/
theorem map_printLoop (buffer : Nat → UInt8) (ptr i n : Nat) :
    (printLoop buffer ptr i n).map (fun q => (q.ptr, q.header)) =
      walk pcapFormat buffer ptr n := by
  induction n generalizing ptr i with
  | zero => rfl
  | succ n ih =>
    rw [printLoop, walk, List.map_cons, ih]
    rfl

/-- Not more than the data of a packet is printed. -/
theorem length_firstBytes_le {buffer : Nat → UInt8} {ptr i n : Nat} {q : Printed}
    (hq : q ∈ printLoop buffer ptr i n) : q.firstBytes.length ≤ q.header.caplen.toNat := by
  induction n generalizing ptr i with
  | zero => cases hq
  | succ n ih =>
    rcases List.mem_cons.mp hq with rfl | hq
    · rw [length_read]
      exact Nat.min_le_right _ _
    · exact ih hq

/-! ## What is stored

The specification of a capture is a list of packets, with sizes and counts that do not wrap. The
invariant ties the context to it. A buffer of less than `2 ^ 63` bytes has room for the sum in the
second test, so only the count can wrap. -/

/-- The packets stored after `p` is offered: `p` too if the limit is not reached and it fits. -/
def offer (bufferSize : Nat) (maxPackets : Int) (stored : List Packet) (p : Packet) :
    List Packet :=
  if (0 < maxPackets → (stored.length : Int) < maxPackets) ∧
      (layout stored).length + p.bytes.length ≤ bufferSize then stored ++ [p]
  else stored

/-- The delivered packets that fitted, in order, while the limit was not reached. -/
def fitting (bufferSize : Nat) (maxPackets : Int) (delivered : List Packet) : List Packet :=
  delivered.foldl (offer bufferSize maxPackets) []

/-- The buffer starts with the stored packets and the counters count them; `packetCount` wraps. -/
structure Buffered (bufferSize : UInt64) (maxPackets : Int32) (ctx : CaptureCtx)
    (stored : List Packet) : Prop where
  size_eq : ctx.bufferSize = bufferSize
  max_eq : ctx.maxPackets = maxPackets
  holds : Holds ctx.buffer 0 (layout stored)
  offset_eq : ctx.offset.toNat = (layout stored).length
  offset_le : (layout stored).length ≤ bufferSize.toNat
  count_eq : ctx.packetCount.toInt = (stored.length : Int).bmod (2 ^ 32)
  length_le : 0 < maxPackets.toInt → (stored.length : Int) ≤ maxPackets.toInt

section Handler

variable {bufferSize : UInt64} {maxPackets : Int32} {ctx : CaptureCtx} {stored : List Packet}

theorem buffered_init (buffer : Nat → UInt8) :
    Buffered bufferSize maxPackets (CaptureCtx.init buffer bufferSize maxPackets) [] where
  size_eq := rfl
  max_eq := rfl
  holds := fun i hi => absurd hi (Nat.not_lt_zero i)
  offset_eq := rfl
  offset_le := Nat.zero_le _
  count_eq := rfl
  length_le := fun h => Int.le_of_lt h

/-- Below the limit the count has not wrapped. -/
theorem Buffered.count_eq_length (h : Buffered bufferSize maxPackets ctx stored)
    (hlt : stored.length < 2 ^ 31) : ctx.packetCount.toInt = stored.length := by
  rw [h.count_eq]
  exact Int.bmod_eq_of_le (by omega) (by omega)

/-- The first test of `packet_handler`. -/
theorem Buffered.limit_iff (h : Buffered bufferSize maxPackets ctx stored) :
    (ctx.maxPackets > 0 ∧ ctx.packetCount ≥ ctx.maxPackets) ↔
      ¬ (0 < maxPackets.toInt → (stored.length : Int) < maxPackets.toInt) := by
  have hmax : maxPackets.toInt < 2 ^ 31 := Int32.toInt_lt maxPackets
  rw [h.max_eq, gt_iff_lt, ge_iff_le, Int32.lt_iff_toInt_lt, Int32.le_iff_toInt_le,
    Classical.not_imp, not_lt]
  refine and_congr_right fun hpos => ?_
  have hle := h.length_le hpos
  rw [h.count_eq_length (by omega)]

/-- The sums of the second test do not wrap. -/
theorem Buffered.toNat_sum (h : Buffered bufferSize maxPackets ctx stored)
    (hsize : bufferSize.toNat < 2 ^ 63) (caplen : UInt32) :
    (ctx.offset + UInt64.ofNat sizeofPkthdr).toNat = (layout stored).length + sizeofPkthdr ∧
      (ctx.offset + UInt64.ofNat sizeofPkthdr + caplen.toUInt64).toNat =
        (layout stored).length + sizeofPkthdr + caplen.toNat := by
  have hcaplen : caplen.toNat < 2 ^ 32 := caplen.toNat_lt
  have hoffset := h.offset_eq
  have hle := h.offset_le
  have hheader : (UInt64.ofNat sizeofPkthdr).toNat = sizeofPkthdr := rfl
  have hsizeof : sizeofPkthdr = 24 := rfl
  simp only [UInt64.toNat_add, UInt32.toNat_toUInt64, hheader]
  omega

/-- The second test of `packet_handler`. -/
theorem Buffered.full_iff (h : Buffered bufferSize maxPackets ctx stored)
    (hsize : bufferSize.toNat < 2 ^ 63) (p : Packet) :
    ctx.offset + UInt64.ofNat sizeofPkthdr + p.header.caplen.toUInt64 > ctx.bufferSize ↔
      ¬ (layout stored).length + p.bytes.length ≤ bufferSize.toNat := by
  have hbytes : p.bytes.length = sizeofPkthdr + p.header.caplen.toNat := p.length_bytes
  rw [gt_iff_lt, UInt64.lt_iff_toNat_lt, (h.toNat_sum hsize p.header.caplen).2, h.size_eq, hbytes,
    Nat.add_assoc, not_le]

/-- The two copies lie behind the stored packets and behind each other. -/
theorem Buffered.holds_copies (h : Buffered bufferSize maxPackets ctx stored) (p : Packet) :
    Holds (copy (copy ctx.buffer ctx.offset.toNat p.header.encode)
      ((layout stored).length + sizeofPkthdr) p.body) 0 (layout (stored ++ [p])) := by
  have hlayout : Holds (copy ctx.buffer ctx.offset.toNat p.header.encode) 0 (layout stored) :=
    h.holds.copy_behind (by rw [h.offset_eq, Nat.zero_add])
  have hheader : Holds (copy ctx.buffer ctx.offset.toNat p.header.encode) (layout stored).length
      p.header.encode := by
    rw [h.offset_eq]
    exact holds_copy
  rw [layout_concat, holds_append, Nat.zero_add, Record.bytes, holds_append]
  refine ⟨hlayout.copy_behind (by omega), hheader.copy_behind ?_, ?_⟩
  · rw [p.header.length_encode]
  · rw [show (pcapFormat.encode p.header).length = sizeofPkthdr from p.header.length_encode]
    exact holds_copy

/-- **One packet.** The handler stores what the specification stores. -/
theorem Buffered.packetHandler (h : Buffered bufferSize maxPackets ctx stored)
    (hsize : bufferSize.toNat < 2 ^ 63) (p : Packet) :
    Buffered bufferSize maxPackets (packetHandler ctx p)
      (offer bufferSize.toNat maxPackets.toInt stored p) := by
  rw [Tcpdump.packetHandler, offer]
  by_cases hlimit : 0 < maxPackets.toInt → (stored.length : Int) < maxPackets.toInt
  swap
  -- the limit is reached, and nothing is stored on either side
  · rwa [if_pos (h.limit_iff.mpr hlimit), if_neg fun hc => hlimit hc.1]
  rw [if_neg fun hc => h.limit_iff.mp hc hlimit]
  by_cases hfit : (layout stored).length + p.bytes.length ≤ bufferSize.toNat
  swap
  -- the packet does not fit
  · rwa [if_pos ((h.full_iff hsize p).mpr hfit), if_neg fun hc => hfit hc.2]
  rw [if_neg fun hc => (h.full_iff hsize p).mp hc hfit, if_pos ⟨hlimit, hfit⟩]
  obtain ⟨hdata, hend⟩ := h.toNat_sum hsize p.header.caplen
  have hbytes : p.bytes.length = sizeofPkthdr + p.header.caplen.toNat := p.length_bytes
  refine ⟨h.size_eq, h.max_eq, ?_, ?_, ?_, ?_, ?_⟩
  -- the bytes
  · simp only [hdata]
    exact h.holds_copies p
  -- the offset
  · rw [layout_concat, List.length_append, hbytes, ← Nat.add_assoc]
    exact hend
  · rwa [layout_concat, List.length_append]
  -- the count, which wraps
  · rw [Int32.toInt_add, h.count_eq, Int32.toInt_one, Int.bmod_add_bmod, List.length_append]
    rfl
  · intro hpos
    have hlt := hlimit hpos
    rw [List.length_append, List.length_singleton]
    omega

/-- The context and the packets after any delivery. -/
theorem buffered_capture (buffer : Nat → UInt8) (hsize : bufferSize.toNat < 2 ^ 63)
    (delivered : List Packet) :
    Buffered bufferSize maxPackets (capture buffer bufferSize maxPackets delivered)
      (fitting bufferSize.toNat maxPackets.toInt delivered) := by
  -- over the deliveries in order, from any context that is in step with its packets
  suffices hfold : ∀ ctx stored, Buffered bufferSize maxPackets ctx stored →
      Buffered bufferSize maxPackets (delivered.foldl Tcpdump.packetHandler ctx)
        (delivered.foldl (offer bufferSize.toNat maxPackets.toInt) stored) from
    hfold _ _ (buffered_init buffer)
  induction delivered with
  | nil => exact fun _ _ h => h
  | cons p delivered ih => exact fun ctx stored h => ih _ _ (h.packetHandler hsize p)

end Handler

/-! ## Capture and walk

If there is a limit, it is an `int`, and the stored packets stay below it. Without a limit the
number of packets passes through every value up to its last one, so a capture of `2 ^ 31` packets or
more has a moment at which it is exactly `2 ^ 31` and the count negative. -/

/-- What the context and the walk over it say of the packets that were to be stored. -/
structure CaptureCorrect (ctx : CaptureCtx) (stored : List Packet) : Prop where
  offset_le : ctx.offset ≤ ctx.bufferSize
  offset_eq : ctx.offset.toNat = (stored.map fun p => sizeofPkthdr + p.header.caplen.toNat).sum
  count_le : 0 < ctx.maxPackets → ctx.packetCount ≤ ctx.maxPackets
  recovers : (printCapturedPackets ctx.buffer ctx.packetCount).map
      (fun q => (q.header, q.data ctx.buffer)) = stored.map fun p => (p.header, p.body)
  inside : ∀ q ∈ printCapturedPackets ctx.buffer ctx.packetCount, ∀ x, q.Touches x →
    x < ctx.offset.toNat

section Correct

variable {bufferSize : UInt64} {maxPackets : Int32} {ctx : CaptureCtx} {stored : List Packet}

/-- As long as the count has not wrapped. -/
theorem Buffered.captureCorrect (h : Buffered bufferSize maxPackets ctx stored)
    (hlt : stored.length < 2 ^ 31) : CaptureCorrect ctx stored := by
  have hcount := h.count_eq_length hlt
  have hprinted : printCapturedPackets ctx.buffer ctx.packetCount =
      printLoop ctx.buffer 0 0 stored.length := by
    rw [printCapturedPackets, hcount, Int.toNat_natCast]
  have hwalk := map_printLoop ctx.buffer 0 0 stored.length
  refine ⟨?_, ?_, ?_, ?_, ?_⟩
  -- the counters of the context
  · rw [UInt64.le_iff_toNat_le, h.offset_eq, h.size_eq]
    exact h.offset_le
  · rw [h.offset_eq, length_layout]
    rfl
  · rw [h.max_eq, Int32.lt_iff_toInt_lt, Int32.le_iff_toInt_le, hcount]
    exact h.length_le
  -- the walk finds the packets
  · rw [hprinted, ← walk_holds h.holds, ← hwalk, List.map_map]
    rfl
  -- every byte it reads is one of them
  · rw [hprinted, h.offset_eq]
    intro q hq x ⟨_, hx⟩
    have hfirst := length_firstBytes_le hq
    have hend := walk_le h.holds (q.ptr, q.header) (hwalk ▸ List.mem_map_of_mem hq)
    rw [Nat.zero_add] at hend
    have hbody : q.ptr + sizeofPkthdr + q.header.caplen.toNat ≤ (layout stored).length := hend
    omega

/-- With `2 ^ 31` packets stored the count is negative and the walk finds none of them. -/
theorem Buffered.not_captureCorrect (h : Buffered bufferSize maxPackets ctx stored)
    (hlength : stored.length = 2 ^ 31) : ¬ CaptureCorrect ctx stored := by
  intro hcorrect
  have hcount : ctx.packetCount.toInt = -2 ^ 31 := by
    rw [h.count_eq, hlength]
    rfl
  have hprinted : printCapturedPackets ctx.buffer ctx.packetCount = [] := by
    rw [printCapturedPackets, hcount]
    rfl
  have hrecovers := congrArg List.length hcorrect.recovers
  rw [hprinted, List.length_map, List.length_map, hlength, List.length_nil] at hrecovers
  omega

/-- The stored packets grow by at most one at a time. -/
theorem exists_prefix_fitting {n size : Nat} {limit : Int} {delivered : List Packet}
    (hn : n ≤ (fitting size limit delivered).length) :
    ∃ initial, initial <+: delivered ∧ (fitting size limit initial).length = n := by
  induction delivered using List.reverseRecOn with
  | nil => exact ⟨[], List.prefix_rfl, (Nat.le_zero.mp hn).symm⟩
  | append_singleton delivered p ih =>
    by_cases hle : n ≤ (fitting size limit delivered).length
    · obtain ⟨initial, hprefix, hlength⟩ := ih hle
      exact ⟨initial, hprefix.trans (List.prefix_append _ _), hlength⟩
    · refine ⟨delivered ++ [p], List.prefix_rfl, ?_⟩
      have hstep : (fitting size limit (delivered ++ [p])).length ≤
          (fitting size limit delivered).length + 1 := by
        rw [fitting, List.foldl_append, List.foldl_cons, List.foldl_nil, offer]
        split
        · rw [List.length_append, List.length_singleton, fitting]
        · exact Nat.le_succ _
      omega

/-- What is delivered first is stored first. -/
theorem length_fitting_le {size : Nat} {limit : Int} {initial delivered : List Packet}
    (h : initial <+: delivered) :
    (fitting size limit initial).length ≤ (fitting size limit delivered).length := by
  obtain ⟨rest, rfl⟩ := h
  rw [fitting, fitting, List.foldl_append]
  generalize initial.foldl (offer size limit) [] = stored
  induction rest generalizing stored with
  | nil => exact Nat.le_refl _
  | cons p rest ih =>
    refine Nat.le_trans ?_ (ih _)
    rw [offer]
    split
    · rw [List.length_append]
      exact Nat.le_add_right _ _
    · exact Nat.le_refl _

end Correct

/-- For every buffer size, limit and delivery: at every moment the buffer and the counters describe
the packets that fitted, and the walk of `print_captured_packets` recovers them from the bytes below
`offset`, if and only if there is a limit or fewer than `2 ^ 31` packets fit. -/
theorem captureCorrect_iff (buffer : Nat → UInt8) (bufferSize : UInt64) (maxPackets : Int32)
    (delivered : List Packet) (hsize : bufferSize.toNat < 2 ^ 63) :
    (∀ sofar, sofar <+: delivered →
        CaptureCorrect (capture buffer bufferSize maxPackets sofar)
          (fitting bufferSize.toNat maxPackets.toInt sofar)) ↔
      (0 < maxPackets.toInt ∨
        (fitting bufferSize.toNat maxPackets.toInt delivered).length < 2 ^ 31) := by
  constructor
  · intro hcorrect
    by_contra hnot
    rw [not_or, not_lt, not_lt] at hnot
    obtain ⟨initial, hprefix, hlength⟩ := exists_prefix_fitting hnot.2
    exact (buffered_capture buffer hsize initial).not_captureCorrect hlength
      (hcorrect initial hprefix)
  · intro hfits sofar hprefix
    have hbuffered : Buffered bufferSize maxPackets _ _ := buffered_capture buffer hsize sofar
    refine hbuffered.captureCorrect ?_
    rcases hfits with hlimit | hfew
    · have hle := hbuffered.length_le hlimit
      have hmax : maxPackets.toInt < 2 ^ 31 := Int32.toInt_lt maxPackets
      omega
    · exact Nat.lt_of_le_of_lt (length_fitting_le hprefix) hfew

/-- A packet of `n` zero bytes. -/
def zeroPacket (n : UInt32) : Packet :=
  ⟨⟨0, 0, n, n⟩, List.replicate n.toNat 0, List.length_replicate⟩

/-- Of three packets the middle one does not fit in 60 bytes. -/
theorem captureCorrect_skipping :
    (60 : UInt64).toNat < 2 ^ 63 ∧
      (fitting 60 0 [zeroPacket 2, zeroPacket 20, zeroPacket 4]).length = 2 ∧
      ∀ sofar, sofar <+: [zeroPacket 2, zeroPacket 20, zeroPacket 4] →
        CaptureCorrect (capture (fun _ => 0xff) 60 0 sofar) (fitting 60 0 sofar) :=
  ⟨by decide, by decide +kernel,
    (captureCorrect_iff (fun _ => 0xff) 60 0 _ (by decide)).mpr (Or.inr (by decide +kernel))⟩

/-- Without a limit, equal packets are stored as long as there is room for all of them. -/
theorem fitting_replicate {size n : Nat} {p : Packet} (hroom : n * p.bytes.length ≤ size) :
    fitting size 0 (List.replicate n p) = List.replicate n p := by
  induction n with
  | zero => rfl
  | succ n ih =>
    have hlength : (layout (List.replicate n p)).length = n * p.bytes.length := by
      rw [length_layout, List.map_replicate, List.sum_replicate_nat, p.length_bytes]
    rw [Nat.succ_mul] at hroom
    rw [List.replicate_succ', fitting, List.foldl_append, List.foldl_cons, List.foldl_nil,
      ← fitting, ih (by omega), offer, if_pos ⟨fun h => absurd h (Int.lt_irrefl 0), by omega⟩]

/-- `2 ^ 31` packets without data in a buffer of 48 GiB: the count is -2147483648. -/
theorem capture_count_wraps :
    ¬ CaptureCorrect
      (capture (fun _ => 0) (UInt64.ofNat (24 * 2 ^ 31)) 0 (List.replicate (2 ^ 31) (zeroPacket 0)))
      (fitting (24 * 2 ^ 31) 0 (List.replicate (2 ^ 31) (zeroPacket 0))) := by
  have hroom : 2 ^ 31 * (zeroPacket 0).bytes.length ≤ 24 * 2 ^ 31 := by
    rw [show (zeroPacket 0).bytes.length = 24 by decide +kernel]
    omega
  have hsize : (UInt64.ofNat (24 * 2 ^ 31)).toNat = 24 * 2 ^ 31 := by decide
  have hbuffered : Buffered (UInt64.ofNat (24 * 2 ^ 31)) 0 _ _ :=
    buffered_capture (fun _ => 0) (by rw [hsize]; omega) (List.replicate (2 ^ 31) (zeroPacket 0))
  rw [hsize] at hbuffered
  refine hbuffered.not_captureCorrect ?_
  rw [show (0 : Int32).toInt = 0 from rfl, fitting_replicate hroom, List.length_replicate]

end OsHomework.Tcpdump
