import StyleCascade.Proofs.Serving

/-!
# Streams that are cut

A stream of messages that ends too early gives the messages that have come whole
(`Frame.exists_readAll_of_joined`).  How it is told from one that ends between two messages depends
on how much of the next message there is: from four bytes on, the end of the source is a failure;
with fewer, it is taken for a close (`Frame.readAll_of_cut`).  So a receiver that ends well has
been left with fewer than four bytes, but not always with none (`Frame.readAll_cutInHeader`).
-/
namespace StyleCascade.Channel

namespace Frame

variable {source : Source} {payload behind missing : ByteArray}

/-- What a reader is told of the end of a source that holds only the first `n` bytes of a
message. -/
def endWithin (ending : SourceEnd) (n : Nat) : Error :=
  if n < 4 then endOfHeaders ending else endOfBody ending

/-- A source that ends inside a message. -/
theorem exists_read_of_size_lt (hsize : payload.size ≤ limit)
    (hbytes : encode payload ++ behind = source.bytes ++ missing)
    (hshort : source.bytes.size < (encode payload).size) :
    ∃ rest, read source = (.error (endWithin source.ending source.bytes.size), rest) := by
  by_cases hheader : source.bytes.size < 4
  · obtain ⟨rest, hread⟩ := Source.exists_read_of_size_lt hheader
    refine ⟨rest, ?_⟩
    rw [endWithin, if_pos hheader, read, hread]
    cases source.ending <;> rfl
  obtain ⟨front, back, hcut, hfront⟩ :=
    Source.exists_append_of_size_le (s := source) (Nat.le_of_not_lt hheader)
  -- The four bytes at the front are the header, so the body is what falls short.
  rw [encode, hcut, ByteArray.append_assoc, ByteArray.append_assoc] at hbytes
  obtain ⟨rfl, -⟩ := (ByteArray.append_eq_append_iff_of_size_eq_left
    ((size_header _).trans hfront.symm)).mp hbytes
  obtain ⟨after, hread, hafter, hending⟩ := Source.exists_read_of_bytes_eq hcut
  have hbody : after.bytes.size < payload.size := by
    rw [hcut, encode, ByteArray.size_append, ByteArray.size_append] at hshort
    rw [hafter]
    omega
  have hannounced : sizeOfHeader (header payload.size) = payload.size :=
    sizeOfHeader_header (Nat.lt_of_le_of_lt hsize limit_lt)
  refine ⟨(readBody after payload.size).2, ?_⟩
  rw [hfront] at hread
  rw [endWithin, if_neg hheader, ← hending]
  simp only [read, hread, hannounced, if_neg (Nat.not_lt.mpr hsize)]
  exact Prod.ext (readBody_of_size_lt hbody) rfl

/-- What a source holds of the messages sent: some of them whole, and of the next one, if there is
a next one, less than the whole. -/
structure Holds (source : Source) (sent whole lost : List ByteArray) (torn : ByteArray) : Prop where
  sent_eq : sent = whole ++ lost
  bytes_eq : source.bytes = joined whole ++ torn
  torn_lt : ∀ payload ∈ lost.head?, torn.size < (encode payload).size

/-- **Of a stream that is cut, the whole messages are read.** -/
theorem exists_readAll_of_joined {sent : List ByteArray}
    (hsize : ∀ payload ∈ sent, payload.size ≤ limit)
    (hbytes : joined sent = source.bytes ++ missing) :
    ∃ whole lost torn, Holds source sent whole lost torn ∧ torn ++ missing = joined lost ∧
      (readAll source).1 = whole ∧ (readAll source).2.1 = endWithin source.ending torn.size := by
  induction sent generalizing source with
  | nil =>
    have hempty : source.bytes = .empty := (ByteArray.append_eq_empty_iff.mp hbytes.symm).1
    obtain ⟨rest, hread⟩ := Source.exists_read_of_size_lt (s := source) (n := 4) (by simp [hempty])
    have hread : read source = (.error (endOfHeaders source.ending), rest) := by
      rw [read, hread]
      cases source.ending <;> rfl
    refine ⟨[], [], .empty, ⟨rfl, hempty, by simp⟩, ?_, ?_⟩
    · rw [hbytes, hempty]
    · rw [readAll_of_error hread]
      exact ⟨rfl, rfl⟩
  | cons payload sent ih =>
    obtain ⟨hpayload, hsent⟩ := List.forall_mem_cons.mp hsize
    rw [joined] at hbytes
    by_cases hshort : source.bytes.size < (encode payload).size
    · obtain ⟨rest, hread⟩ := exists_read_of_size_lt hpayload hbytes hshort
      refine ⟨[], payload :: sent, source.bytes, ⟨rfl, ?_, by simpa using hshort⟩, ?_, ?_⟩
      · exact ByteArray.empty_append.symm
      · exact hbytes.symm
      · rw [readAll_of_error hread]
        exact ⟨rfl, rfl⟩
    obtain ⟨front, back, hcut, hfront⟩ :=
      Source.exists_append_of_size_le (s := source) (Nat.le_of_not_lt hshort)
    rw [hcut, ByteArray.append_assoc] at hbytes
    obtain ⟨rfl, hbehind⟩ := (ByteArray.append_eq_append_iff_of_size_eq_left hfront.symm).mp hbytes
    obtain ⟨after, hread, hafter, hending⟩ := exists_read_of_bytes_eq hpayload hcut
    obtain ⟨whole, lost, torn, hholds, hlost, hwhole, herror⟩ :=
      ih hsent (by rw [hafter, hbehind])
    refine ⟨payload :: whole, lost, torn, ⟨?_, ?_, hholds.torn_lt⟩, hlost, ?_⟩
    · rw [hholds.sent_eq, List.cons_append]
    · rw [hcut, ← hafter, hholds.bytes_eq, joined, ByteArray.append_assoc]
    · rw [readAll_of_ok hread]
      exact ⟨congrArg _ hwhole, hending ▸ herror⟩

end Frame

/-- A receiver that ends well has read to where its source reports a close. -/
theorem Receiver.readAll_eq_closed_of_run {σ : Type} {r : Receiver σ} {source : Source}
    (h : (r.run source).1 = .ok ()) : (Frame.readAll source).2.1 = .closed := by
  unfold run at h
  generalize Frame.readAll source = all at h ⊢
  obtain ⟨payloads, ending, rest⟩ := all
  dsimp only at h ⊢
  split at h
  · cases h
  · cases ending with
    | closed => rfl
    | _ => cases h

namespace Frame

/-- **What reading makes of a stream of messages that is cut anywhere.**  Exactly the messages that
have come whole are read.  Behind them comes the close, if what is left of the next message does
not even make up a header, and otherwise a failure; so a receiver ends well only if fewer than four
bytes are left. -/
theorem readAll_of_cut {payloads : List ByteArray} {source : Source} {missing : ByteArray}
    (hbytes : (writeEach {} payloads).2.written = source.bytes ++ missing)
    (hending : source.ending = .closed) :
    ∃ whole lost torn, Holds source (allowed payloads) whole lost torn ∧
      torn ++ missing = joined lost ∧
      (readAll source).1 = whole ∧
      (readAll source).2.1 = (if torn.size < 4 then .closed else .io .bodyCutShort) ∧
      ∀ {σ : Type} (r : Receiver σ), (r.run source).1 = .ok () → torn.size < 4 := by
  have hsizes : ∀ payload ∈ allowed payloads, payload.size ≤ limit := fun payload h => by
    simpa using (List.mem_filter.mp h).2
  rw [writeEach_eq rfl] at hbytes
  obtain ⟨whole, lost, torn, hholds, hlost, hwhole, herror⟩ :=
    exists_readAll_of_joined hsizes (ByteArray.empty_append.symm.trans hbytes)
  rw [hending] at herror
  refine ⟨whole, lost, torn, hholds, hlost, hwhole, herror, fun r hrun => ?_⟩
  have hclosed := herror.symm.trans (Receiver.readAll_eq_closed_of_run hrun)
  by_contra hlong
  rw [endWithin, if_neg hlong] at hclosed
  cases hclosed

/-- Two messages. -/
def pairSample : List ByteArray :=
  [⟨#[97, 98, 99]⟩, ⟨#[120, 121]⟩]

/-- The first of them, and of the second one all but its last byte. -/
def cutInBody : Source :=
  ⟨[⟨#[0, 0, 0, 3, 97]⟩, ⟨#[98, 99, 0, 0, 0, 2, 120]⟩], .closed⟩

theorem readAll_of_cut_cutInBody :
    (writeEach {} pairSample).2.written = cutInBody.bytes ++ ⟨#[121]⟩ ∧
      cutInBody.ending = .closed ∧
      ∃ whole lost torn, Holds cutInBody (allowed pairSample) whole lost torn ∧
        torn ++ ⟨#[121]⟩ = joined lost ∧
        (readAll cutInBody).1 = whole ∧
        (readAll cutInBody).2.1 = (if torn.size < 4 then .closed else .io .bodyCutShort) ∧
        ∀ {σ : Type} (r : Receiver σ), (r.run cutInBody).1 = .ok () → torn.size < 4 := by
  have hbytes : (writeEach {} pairSample).2.written = cutInBody.bytes ++ ⟨#[121]⟩ := by
    decide +kernel
  exact ⟨hbytes, rfl, readAll_of_cut hbytes rfl⟩

/-- The first two bytes of the stream. -/
def cutInHeader : Source :=
  ⟨[⟨#[0, 0]⟩], .closed⟩

/-- A stream that ends inside a header passes for one that has been closed between messages. -/
theorem readAll_cutInHeader :
    (writeEach {} pairSample).2.written =
        cutInHeader.bytes ++ ⟨#[0, 3, 97, 98, 99, 0, 0, 0, 2, 120, 121]⟩ ∧
      cutInHeader.ending = .closed ∧ (¬∃ whole, cutInHeader.bytes = joined whole) ∧
      (readAll cutInHeader).2.1 = .closed ∧
      (Receiver.recording.run cutInHeader).1 = .ok () := by
  have hread : read cutInHeader = (.error .closed, ⟨[], .closed⟩) := rfl
  refine ⟨by decide +kernel, rfl, ?_, ?_, ?_⟩
  · rintro ⟨whole, hwhole⟩
    have hsize : (joined whole).size = 2 := congrArg ByteArray.size hwhole.symm
    cases whole with
    | nil => cases hsize
    | cons payload rest =>
      simp only [joined, encode, ByteArray.size_append, size_header] at hsize
      omega
  · rw [readAll_of_error hread]
  · rw [Receiver.run_eq, hread]
    rfl

end Frame
end StyleCascade.Channel
