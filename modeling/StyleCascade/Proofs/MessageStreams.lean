import StyleCascade.Channel.Frame

/-!
# Messages in a stream

Reading a message depends on the bytes that are left and not on the chunks they come in.  If the
bytes start with a message as it stands in a stream, reading gives that message and leaves the
bytes behind it (`Frame.exists_read_of_bytes_eq`).  If reading fails, they start with no whole
message of an allowed size, and why they do not decides the failure (`Frame.read_cases`,
`Frame.Stuck`).

Messages that are written one after the other are therefore read back in order
(`Frame.readTimes_of_writeEach`).  One above the limit is refused before its first byte is
written, and the messages around it do not notice.
-/
namespace StyleCascade.Channel

/-! ## Taking a number of bytes -/

namespace Source

theorem read_eq (s : Source) (n : Nat) :
    s.read n = (if (s.take n).1.size = n then .ok (s.take n).1 else .error s.ending,
      (s.take n).2) := rfl

/-- What is taken from a source that starts with enough bytes. -/
theorem exists_read_of_bytes_eq {s : Source} {front back : ByteArray}
    (h : s.bytes = front ++ back) :
    ∃ rest, s.read front.size = (.ok front, rest) ∧ rest.bytes = back ∧ rest.ending = s.ending := by
  have htaken : (s.take front.size).1 = front := by
    rw [take_fst, h, ByteArray.extract_append_size_left, ByteArray.extract_zero_size]
  refine ⟨(s.take front.size).2, ?_, ?_, ending_take s _⟩
  · rw [read_eq, htaken, if_pos rfl]
  · rw [bytes_take, h, ByteArray.size_append]
    exact ByteArray.extract_append_eq_right rfl rfl

/-- A source with too few bytes reports its end. -/
theorem exists_read_of_size_lt {s : Source} {n : Nat} (h : s.bytes.size < n) :
    ∃ rest, s.read n = (.error s.ending, rest) := by
  have hshort : ¬(s.take n).1.size = n := by
    rw [take_fst, ByteArray.size_extract]
    omega
  exact ⟨(s.take n).2, by rw [read_eq, if_neg hshort]⟩

/-- The bytes of a source that has enough of them, cut in two. -/
theorem exists_append_of_size_le {s : Source} {n : Nat} (h : n ≤ s.bytes.size) :
    ∃ front back, s.bytes = front ++ back ∧ front.size = n := by
  refine ⟨s.bytes.extract 0 n, s.bytes.extract n s.bytes.size, ?_, ?_⟩
  · rw [ByteArray.extract_append_extract, Nat.zero_min, Nat.max_eq_right h,
      ByteArray.extract_zero_size]
  · rw [ByteArray.size_extract]
    omega

end Source

namespace Frame

/-! ## Headers -/

/-- Four bytes are the header of the size they give. -/
theorem header_sizeOfHeader {bytes : ByteArray} (h : bytes.size = 4) :
    header (sizeOfHeader bytes) = bytes := by
  obtain ⟨⟨l⟩⟩ := bytes
  match l, h with
  | [a, b, c, d], _ =>
    have ha := a.toNat_lt
    have hb := b.toNat_lt
    have hc := c.toNat_lt
    have hd := d.toNat_lt
    simp only [sizeOfHeader, header, List.foldl, Nat.shiftRight_eq_div_pow]
    congr 2
    simp only [← UInt8.toNat_inj, List.cons.injEq, UInt8.toNat_ofNat', and_true]
    omega

theorem limit_lt : limit < 0x100000000 := by decide

/-! ## Writing -/

variable {sink : Sink} {payload : ByteArray}

/-- A message of an allowed size goes out whole. -/
theorem write_of_size_le (hroom : sink.room = none) (h : payload.size ≤ limit) :
    write sink payload = (.ok (), { sink with written := sink.written ++ encode payload }) := by
  rw [write, if_neg (Nat.not_lt.mpr h)]
  simp only [Sink.write, hroom, encode, ByteArray.append_assoc]

/-- A message above the limit is refused, and the sink stays as it is. -/
theorem write_of_limit_lt (h : limit < payload.size) :
    write sink payload = (.error (.frameTooLarge payload.size), sink) :=
  if_pos h

/-! ## Reading -/

/-- A message at the front is what is read. -/
theorem exists_read_of_bytes_eq {source : Source} {back : ByteArray} (h : payload.size ≤ limit)
    (hbytes : source.bytes = encode payload ++ back) :
    ∃ rest, read source = (.ok payload, rest) ∧ rest.bytes = back ∧
      rest.ending = source.ending := by
  rw [encode, ByteArray.append_assoc] at hbytes
  obtain ⟨behind, hheader, hbehind, hending⟩ := Source.exists_read_of_bytes_eq hbytes
  obtain ⟨rest, hbody, hrest, hending'⟩ := Source.exists_read_of_bytes_eq hbehind
  rw [size_header] at hheader
  refine ⟨rest, ?_, hrest, hending'.trans hending⟩
  have hsize : sizeOfHeader (header payload.size) = payload.size :=
    sizeOfHeader_header (Nat.lt_of_le_of_lt h limit_lt)
  simp only [read, hheader, hsize, if_neg (Nat.not_lt.mpr h), readBody, hbody]

/-- What a reader is told of the end of a source when it has asked for a header. -/
def endOfHeaders : SourceEnd → Error
  | .closed => .closed
  | .failing reason => .io (.stream reason)

/-- What a reader is told of the end of a source inside a message. -/
def endOfBody : SourceEnd → Error
  | .closed => .io .bodyCutShort
  | .failing reason => .io (.stream reason)

/-- Why the bytes `tail`, the last ones of a source with that end, do not start with a message. -/
inductive Stuck (ending : SourceEnd) (tail : ByteArray) : Error → Prop
  /-- They are too few for a header. -/
  | noHeader (h : tail.size < 4) : Stuck ending tail (endOfHeaders ending)
  /-- The header announces too large a message. -/
  | tooLarge {size : Nat} {back : ByteArray} (hheader : tail = header size ++ back)
      (hbound : size < 0x100000000) (h : limit < size) : Stuck ending tail (.frameTooLarge size)
  /-- The message is longer than what there is of it. -/
  | noBody {size : Nat} {back : ByteArray} (hheader : tail = header size ++ back)
      (hbound : size ≤ limit) (h : back.size < size) : Stuck ending tail (endOfBody ending)

theorem readBody_of_size_lt {source : Source} {size : Nat} (h : source.bytes.size < size) :
    (readBody source size).1 = .error (endOfBody source.ending) := by
  obtain ⟨rest, hread⟩ := Source.exists_read_of_size_lt h
  rw [readBody, hread]
  cases source.ending <;> rfl

theorem sizeOfHeader_lt {bytes : ByteArray} (h : bytes.size = 4) :
    sizeOfHeader bytes < 0x100000000 := by
  obtain ⟨⟨l⟩⟩ := bytes
  match l, h with
  | [a, b, c, d], _ =>
    have ha := a.toNat_lt
    have hb := b.toNat_lt
    have hc := c.toNat_lt
    have hd := d.toNat_lt
    simp only [sizeOfHeader, List.foldl]
    omega

/-- **Reading gives the message at the front, or says why there is none.** -/
theorem read_cases (source : Source) :
    (∃ payload rest, payload.size ≤ limit ∧ source.bytes = encode payload ++ rest.bytes ∧
      rest.ending = source.ending ∧ read source = (.ok payload, rest)) ∨
    ∃ e rest, Stuck source.ending source.bytes e ∧ read source = (.error e, rest) := by
  by_cases hsize : source.bytes.size < 4
  · obtain ⟨rest, hread⟩ := Source.exists_read_of_size_lt hsize
    refine .inr ⟨_, rest, .noHeader hsize, ?_⟩
    rw [read, hread]
    cases source.ending <;> rfl
  obtain ⟨front, back, hbytes, hfront⟩ :=
    Source.exists_append_of_size_le (s := source) (Nat.le_of_not_lt hsize)
  obtain ⟨behind, hheader, hbehind, hending⟩ := Source.exists_read_of_bytes_eq hbytes
  rw [hfront] at hheader
  have hshape : source.bytes = header (sizeOfHeader front) ++ back := by
    rw [header_sizeOfHeader hfront, hbytes]
  by_cases hlarge : limit < sizeOfHeader front
  · refine .inr ⟨_, behind, .tooLarge hshape (sizeOfHeader_lt hfront) hlarge, ?_⟩
    simp only [read, hheader, if_pos hlarge]
  have hlarge := Nat.le_of_not_lt hlarge
  by_cases hbody : back.size < sizeOfHeader front
  · refine .inr ⟨_, (readBody behind (sizeOfHeader front)).2, .noBody hshape hlarge hbody, ?_⟩
    have herror : (readBody behind (sizeOfHeader front)).1 = _ :=
      readBody_of_size_lt (hbehind ▸ hbody)
    simp only [read, hheader, if_neg (Nat.not_lt.mpr hlarge), ← hending]
    exact Prod.ext herror rfl
  obtain ⟨payload, after, hcut, hpayload⟩ :=
    Source.exists_append_of_size_le (s := behind) (hbehind ▸ Nat.le_of_not_lt hbody)
  have hmessage : source.bytes = encode payload ++ after := by
    rw [hshape, ← hbehind, hcut, encode, hpayload, ByteArray.append_assoc]
  obtain ⟨rest, hread, hrest, hending⟩ := exists_read_of_bytes_eq (hpayload ▸ hlarge) hmessage
  exact .inl ⟨payload, rest, hpayload ▸ hlarge, hrest ▸ hmessage, hending, hread⟩

/-! ## Many messages -/

/-- Messages as they stand in a stream, one behind the other. -/
def joined : List ByteArray → ByteArray
  | [] => .empty
  | payload :: rest => encode payload ++ joined rest

@[simp]
theorem joined_append (a b : List ByteArray) : joined (a ++ b) = joined a ++ joined b := by
  induction a with
  | nil => exact ByteArray.empty_append.symm
  | cons payload rest ih => rw [List.cons_append, joined, ih, joined, ByteArray.append_assoc]

/-- The messages of an allowed size. -/
def allowed (payloads : List ByteArray) : List ByteArray :=
  payloads.filter (·.size ≤ limit)

/-- Writes messages one after the other, whatever becomes of each of them. -/
def writeEach (sink : Sink) : List ByteArray → List (Except Error Unit) × Sink
  | [] => ([], sink)
  | payload :: rest =>
    let (result, sink) := write sink payload
    let (results, sink) := writeEach sink rest
    (result :: results, sink)

/-- Reads a number of times, whatever comes of it. -/
def readTimes : Nat → Source → List (Except Error ByteArray) × Source
  | 0, source => ([], source)
  | n + 1, source =>
    let (result, source) := read source
    let (results, source) := readTimes n source
    (result :: results, source)

/-- What the writer of a message is told. -/
def verdict (payload : ByteArray) : Except Error Unit :=
  if payload.size ≤ limit then .ok () else .error (.frameTooLarge payload.size)

theorem writeEach_eq (hroom : sink.room = none) (payloads : List ByteArray) :
    writeEach sink payloads =
      (payloads.map verdict,
        { sink with written := sink.written ++ joined (allowed payloads) }) := by
  induction payloads generalizing sink with
  | nil => simp [writeEach, joined, allowed]
  | cons payload rest ih =>
    by_cases h : payload.size ≤ limit
    · rw [writeEach, write_of_size_le hroom h]
      simp only [@ih { sink with written := sink.written ++ encode payload } hroom]
      simp [verdict, allowed, h, joined, ByteArray.append_assoc]
    · rw [writeEach, write_of_limit_lt (Nat.lt_of_not_le h)]
      simp only [ih hroom]
      simp [verdict, allowed, h]

/-- Messages at the front of a source are read in order. -/
theorem exists_readTimes_of_bytes_eq {payloads : List ByteArray} {back : ByteArray}
    {source : Source} (h : ∀ payload ∈ payloads, payload.size ≤ limit)
    (hbytes : source.bytes = joined payloads ++ back) (more : Nat) :
    ∃ rest, rest.bytes = back ∧ rest.ending = source.ending ∧
      (readTimes (payloads.length + more) source).1 =
        payloads.map .ok ++ (readTimes more rest).1 := by
  induction payloads generalizing source with
  | nil =>
    refine ⟨source, hbytes.trans ByteArray.empty_append, rfl, ?_⟩
    rw [List.length_nil, Nat.zero_add, List.map_nil, List.nil_append]
  | cons payload payloads ih =>
    obtain ⟨hpayload, hrest⟩ := List.forall_mem_cons.mp h
    rw [joined, ByteArray.append_assoc] at hbytes
    obtain ⟨behind, hread, hbehind, hending⟩ := exists_read_of_bytes_eq hpayload hbytes
    obtain ⟨rest, hback, hending', hreads⟩ := ih hrest hbehind
    refine ⟨rest, hback, hending'.trans hending, ?_⟩
    rw [List.length_cons, Nat.add_right_comm, readTimes, hread]
    simp only [hreads, List.map_cons, List.cons_append]

/-- **Messages come out of a stream as they went in.**  Of messages written one after the other
those above the limit are refused and leave no byte in the stream; however the bytes are cut
into chunks, reading gives the others in order, and then that the stream is closed. -/
theorem readTimes_of_writeEach {payloads : List ByteArray} {source : Source}
    (hroom : sink.room = none)
    (hbytes : (writeEach sink payloads).2.written = sink.written ++ source.bytes)
    (hending : source.ending = .closed) :
    (writeEach sink payloads).1 = payloads.map verdict ∧
      source.bytes = joined (allowed payloads) ∧
      (readTimes ((allowed payloads).length + 1) source).1 =
        (allowed payloads).map .ok ++ [.error .closed] := by
  rw [writeEach_eq hroom] at hbytes ⊢
  have hbytes : source.bytes = joined (allowed payloads) :=
    ((ByteArray.append_right_inj _).mp hbytes).symm
  have hsizes : ∀ payload ∈ allowed payloads, payload.size ≤ limit := fun payload h => by
    simpa using (List.mem_filter.mp h).2
  obtain ⟨rest, hrest, hclosed, hreads⟩ := exists_readTimes_of_bytes_eq hsizes
    (hbytes.trans ByteArray.append_empty.symm) 1
  refine ⟨rfl, hbytes, hreads.trans ?_⟩
  have hempty : rest.bytes.size < 4 := by rw [hrest]; decide
  obtain ⟨_, hread⟩ := Source.exists_read_of_size_lt hempty
  simp only [readTimes, read, hread, hclosed, hending]

/-- A message of one byte more than allowed. -/
@[irreducible]
def largeMessage : ByteArray :=
  ⟨Array.replicate (limit + 1) 0⟩

theorem size_largeMessage : largeMessage.size = limit + 1 := by
  rw [largeMessage, ← ByteArray.size_data, Array.size_replicate]

/-- A message, one above the limit, and one without bytes. -/
def mixedSample : List ByteArray :=
  [⟨#[97, 98, 99]⟩, largeMessage, .empty]

/-- What is sent of them, cut inside a header and inside a message. -/
def cutSample : Source :=
  ⟨[⟨#[0, 0]⟩, ⟨#[0, 3, 97]⟩, .empty, ⟨#[98, 99, 0, 0, 0, 0]⟩], .closed⟩

theorem sizes_mixedSample : (⟨#[97, 98, 99]⟩ : ByteArray).size ≤ limit ∧
    ¬largeMessage.size ≤ limit ∧ ByteArray.empty.size ≤ limit := by
  refine ⟨by decide, ?_, by decide⟩
  rw [size_largeMessage]
  omega

theorem allowed_mixedSample : allowed mixedSample = [⟨#[97, 98, 99]⟩, .empty] := by
  simp [allowed, mixedSample, sizes_mixedSample]

theorem readTimes_of_writeEach_mixedSample :
    (writeEach {} mixedSample).2.written = ({} : Sink).written ++ cutSample.bytes ∧
      (writeEach {} mixedSample).1 = [.ok (), .error (.frameTooLarge (limit + 1)), .ok ()] ∧
      (readTimes 3 cutSample).1 =
        [.ok ⟨#[97, 98, 99]⟩, .ok .empty, .error .closed] := by
  have hbytes : (writeEach {} mixedSample).2.written = ({} : Sink).written ++ cutSample.bytes := by
    rw [writeEach_eq rfl, allowed_mixedSample]
    rfl
  have h := readTimes_of_writeEach rfl hbytes rfl
  rw [allowed_mixedSample] at h
  refine ⟨hbytes, h.1.trans ?_, h.2.2⟩
  simp [mixedSample, verdict, sizes_mixedSample, size_largeMessage]

end Frame
end StyleCascade.Channel
