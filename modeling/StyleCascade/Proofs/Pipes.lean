import StyleCascade.Proofs.MessageStreams

/-!
# Pipes

A pipe carries bytes from a writer to a reader, in order and without loss, and holds a limited
number of them on the way.  The bytes are handed over in pieces of any size; what is still to be
read does not change by it (`Pipe.Moves.bytes_eq`), and as long as some bytes have not arrived,
some piece can move (`Pipe.exists_moves`).

A reader waits until a whole message has arrived.  If messages are all that is in a pipe, it
then reads the first of them (`Frame.exists_read_of_ready`).
-/
namespace StyleCascade.Channel

/-! ## The way of the bytes -/

structure Pipe where
  /-- What the writer has still to hand over. -/
  unsent : ByteArray := .empty
  /-- What is on its way. -/
  inFlight : ByteArray := .empty
  /-- What has arrived and has not been read, in the pieces it came in. -/
  arrived : List ByteArray := []

theorem Source.bytes_concat (chunks : List ByteArray) (chunk : ByteArray) (ending : SourceEnd) :
    bytes ⟨chunks ++ [chunk], ending⟩ = bytes ⟨chunks, ending⟩ ++ chunk := by
  induction chunks with
  | nil => exact ByteArray.append_empty.trans ByteArray.empty_append.symm
  | cons first rest ih => rw [List.cons_append, bytes_cons, ih, bytes_cons, ByteArray.append_assoc]

namespace Pipe

variable {capacity : Nat} {p q : Pipe}

/-- What the reader reads from. -/
def source (p : Pipe) : Source :=
  ⟨p.arrived, .closed⟩

/-- All bytes that are still to be read, in order. -/
def bytes (p : Pipe) : ByteArray :=
  p.source.bytes ++ (p.inFlight ++ p.unsent)

/-- A piece goes from the writer onto the way, or from there to the reader. -/
inductive Moves (capacity : Nat) : Pipe → Pipe → Prop
  | depart {piece unsent inFlight : ByteArray} {arrived : List ByteArray} (hpiece : 0 < piece.size)
      (hroom : inFlight.size + piece.size ≤ capacity) :
      Moves capacity ⟨piece ++ unsent, inFlight, arrived⟩ ⟨unsent, inFlight ++ piece, arrived⟩
  | arrive {unsent piece inFlight : ByteArray} {arrived : List ByteArray}
      (hpiece : 0 < piece.size) :
      Moves capacity ⟨unsent, piece ++ inFlight, arrived⟩ ⟨unsent, inFlight, arrived ++ [piece]⟩

theorem Moves.bytes_eq (h : Moves capacity p q) : q.bytes = p.bytes := by
  cases h with
  | depart => simp only [bytes, source, ByteArray.append_assoc]
  | arrive => simp only [bytes, source, Source.bytes_concat, ByteArray.append_assoc]

/-- How far the bytes are from having arrived: two moves for each that has not been handed over. -/
def distance (p : Pipe) : Nat :=
  2 * p.unsent.size + p.inFlight.size

theorem Moves.distance_lt (h : Moves capacity p q) : q.distance < p.distance := by
  cases h <;> simp only [distance, ByteArray.size_append] <;> omega

/-- The first byte of some bytes, as a piece. -/
theorem exists_piece_of_ne_empty {bytes : ByteArray} (h : bytes ≠ .empty) :
    ∃ piece rest, bytes = piece ++ rest ∧ piece.size = 1 := by
  have hsize : bytes.size ≠ 0 := fun hzero => h (ByteArray.size_eq_zero_iff.mp hzero)
  have hbytes : (⟨[bytes], .closed⟩ : Source).bytes = bytes := ByteArray.append_empty
  obtain ⟨piece, rest, hcut, hpiece⟩ :=
    Source.exists_append_of_size_le (s := ⟨[bytes], .closed⟩) (n := 1) (by rw [hbytes]; omega)
  exact ⟨piece, rest, hbytes.symm.trans hcut, hpiece⟩

/-- **A pipe is never stuck.** -/
theorem exists_moves (hcapacity : 0 < capacity) (p : Pipe)
    (h : ¬(p.unsent = .empty ∧ p.inFlight = .empty)) : ∃ q, Moves capacity p q := by
  obtain ⟨unsent, inFlight, arrived⟩ := p
  by_cases hflight : inFlight = .empty
  · have hunsent : unsent ≠ .empty := fun hunsent => h ⟨hunsent, hflight⟩
    obtain ⟨piece, rest, rfl, hpiece⟩ := exists_piece_of_ne_empty hunsent
    refine ⟨_, .depart (by omega) ?_⟩
    rw [hflight, hpiece]
    show 0 + 1 ≤ capacity
    omega
  · obtain ⟨piece, rest, rfl, hpiece⟩ := exists_piece_of_ne_empty hflight
    exact ⟨_, .arrive (by omega)⟩

/-- What is written goes behind everything else. -/
theorem bytes_append_unsent (p : Pipe) (bytes : ByteArray) :
    ({ p with unsent := p.unsent ++ bytes } : Pipe).bytes = p.bytes ++ bytes := by
  simp only [Pipe.bytes, source, ByteArray.append_assoc]

theorem bytes_of_arrived (hunsent : p.unsent = .empty) (hflight : p.inFlight = .empty) :
    p.bytes = p.source.bytes := by
  rw [bytes, hunsent, hflight, ByteArray.append_empty, ByteArray.append_empty]

end Pipe

/-! ## Waiting for a message -/

namespace Frame

/-- Whether a reader need not wait for more bytes. -/
def Ready (source : Source) : Prop :=
  (read source).1 ≠ .error .closed ∧ (read source).1 ≠ .error (.io .bodyCutShort)

theorem ready_of_bytes_eq {source : Source} {payload back : ByteArray} (h : payload.size ≤ limit)
    (hbytes : source.bytes = encode payload ++ back) : Ready source := by
  obtain ⟨rest, hread, -⟩ := exists_read_of_bytes_eq h hbytes
  simp [Ready, hread]

/-- Bytes start with one message only. -/
theorem encode_append_inj {a b front back : ByteArray} (ha : a.size ≤ limit) (hb : b.size ≤ limit)
    (h : encode a ++ front = encode b ++ back) : a = b ∧ front = back := by
  have hbytes : (⟨[encode a ++ front], .closed⟩ : Source).bytes = encode a ++ front :=
    ByteArray.append_empty
  obtain ⟨rest, hread, hrest, -⟩ := exists_read_of_bytes_eq ha hbytes
  obtain ⟨rest', hread', hrest', -⟩ := exists_read_of_bytes_eq hb (hbytes.trans h)
  obtain ⟨hpayload, rfl⟩ := Prod.mk.inj (hread.symm.trans hread')
  exact ⟨Except.ok.inj hpayload, hrest.symm.trans hrest'⟩

/-- No message of an allowed size starts with a header that announces too large a one. -/
theorem encode_append_ne_of_limit_lt {payload front back : ByteArray} {size : Nat}
    (h : payload.size ≤ limit) (hlarge : limit < size) (hbound : size < 0x100000000) :
    encode payload ++ front ≠ header size ++ back := by
  intro heq
  rw [encode, ByteArray.append_assoc] at heq
  have hheader : header payload.size = header size := by
    have hcut := congrArg (·.extract 0 4) heq
    simpa only [ByteArray.extract_append_eq_left (size_header _).symm] using hcut
  have hsize := congrArg sizeOfHeader hheader
  rw [sizeOfHeader_header (Nat.lt_of_le_of_lt h limit_lt), sizeOfHeader_header hbound] at hsize
  omega

/-- **A reader that need not wait reads the first message.**  The bytes that have arrived are
the front of a number of messages, of which `back` is still to come. -/
theorem exists_read_of_ready {source : Source} {back : ByteArray} {payloads : List ByteArray}
    (hsize : ∀ payload ∈ payloads, payload.size ≤ limit) (hending : source.ending = .closed)
    (hbytes : source.bytes ++ back = joined payloads) (hready : Ready source) :
    ∃ payload more rest, payloads = payload :: more ∧ read source = (.ok payload, rest) ∧
      rest.bytes ++ back = joined more ∧ rest.ending = .closed := by
  rcases read_cases source with
    ⟨payload, rest, hpayload, hfront, hrest, hread⟩ | ⟨e, rest, hstuck, hread⟩
  · rw [hfront, ByteArray.append_assoc] at hbytes
    cases payloads with
    | nil =>
      have hzero := congrArg ByteArray.size hbytes
      simp [joined, encode, ByteArray.size_append, size_header] at hzero
    | cons first more =>
      obtain ⟨hfirst, hmore⟩ := List.forall_mem_cons.mp hsize
      obtain ⟨rfl, hback⟩ := encode_append_inj hpayload hfirst hbytes
      exact ⟨payload, more, rest, rfl, hread, hback, hrest.trans hending⟩
  · rw [hending] at hstuck
    rw [Ready, hread] at hready
    cases hstuck with
    | noHeader => exact absurd rfl hready.1
    | noBody => exact absurd rfl hready.2
    | tooLarge hheader hbound hlarge =>
      rw [hheader, ByteArray.append_assoc] at hbytes
      cases payloads with
      | nil =>
        have hzero := congrArg ByteArray.size hbytes
        simp [joined, ByteArray.size_append, size_header] at hzero
      | cons first more =>
        exact absurd hbytes.symm
          (encode_append_ne_of_limit_lt (hsize _ List.mem_cons_self) hlarge hbound)

end Frame
end StyleCascade.Channel
