import StyleCascade.Channel.Error

/-!
# Byte streams

A source delivers bytes in chunks whose borders mean nothing: what is taken from a
source depends only on the bytes that are left (`Source.take_fst`, `Source.bytes_take`).
A sink keeps the bytes it has taken, and may have room for a limited number of them.
-/
namespace StyleCascade.Channel

/-! ## Sources -/

/-- What reading gives behind the last byte. -/
inductive SourceEnd
  /-- The other side has closed the stream. -/
  | closed
  /-- Reading fails. -/
  | failing (reason : String)
deriving DecidableEq, Repr

structure Source where
  /-- What single reads deliver at most; an empty chunk is passed over. -/
  chunks : List ByteArray := []
  ending : SourceEnd := .closed

namespace Source

/-- The bytes that are left. -/
def bytes (s : Source) : ByteArray :=
  s.chunks.foldr (· ++ ·) .empty

/-- Their number. -/
def size (s : Source) : Nat :=
  s.chunks.foldr (·.size + ·) 0

/-- Takes `n` bytes from chunks, or all of them if there are fewer. -/
def takeFrom : Nat → List ByteArray → ByteArray × List ByteArray
  | _, [] => (.empty, [])
  | n, chunk :: rest =>
    if n ≤ chunk.size then (chunk.extract 0 n, chunk.extract n chunk.size :: rest)
    else
      let (more, rest) := takeFrom (n - chunk.size) rest
      (chunk ++ more, rest)

def take (s : Source) (n : Nat) : ByteArray × Source :=
  let (taken, chunks) := takeFrom n s.chunks
  (taken, { s with chunks })

/-- Takes exactly `n` bytes. If there are fewer, they are lost, and the end of the source
is reported. -/
def read (s : Source) (n : Nat) : Except SourceEnd ByteArray × Source :=
  let (taken, s) := s.take n
  (if taken.size = n then .ok taken else .error s.ending, s)

/-- A cut behind the end of the bytes is a cut at their end. -/
theorem extract_of_size_le {bytes : ByteArray} {i j : Nat} (h : bytes.size ≤ j) :
    bytes.extract i j = bytes.extract i bytes.size := by
  ext k
  · simp only [ByteArray.data_extract, Array.size_extract, ByteArray.size_data]
    omega
  · simp

/-! ### Taking is a matter of the bytes alone -/

@[simp]
theorem bytes_cons (chunk : ByteArray) (chunks : List ByteArray) (ending : SourceEnd) :
    bytes ⟨chunk :: chunks, ending⟩ = chunk ++ bytes ⟨chunks, ending⟩ := rfl

theorem size_bytes (s : Source) : s.bytes.size = s.size := by
  obtain ⟨chunks, ending⟩ := s
  induction chunks with
  | nil => rfl
  | cons chunk rest ih =>
    rw [bytes_cons, ByteArray.size_append, ih]
    simp [size]

theorem take_fst (s : Source) (n : Nat) : (s.take n).1 = s.bytes.extract 0 n := by
  obtain ⟨chunks, ending⟩ := s
  induction chunks generalizing n with
  | nil => exact (ByteArray.extract_eq_empty_iff.2 (Nat.min_le_right ..)).symm
  | cons chunk rest ih =>
    have ih := ih (n - chunk.size)
    simp only [take, takeFrom, bytes_cons] at ih ⊢
    rw [ByteArray.extract_append, Nat.zero_sub, ← ih]
    split
    · rename_i h
      rw [ih, Nat.sub_eq_zero_of_le h, ByteArray.extract_same, ByteArray.append_empty]
    · rename_i h
      rw [extract_of_size_le (by omega), ByteArray.extract_zero_size]

theorem bytes_take (s : Source) (n : Nat) :
    (s.take n).2.bytes = s.bytes.extract n s.bytes.size := by
  obtain ⟨chunks, ending⟩ := s
  induction chunks generalizing n with
  | nil => exact (ByteArray.extract_eq_empty_iff.2 (Nat.zero_le _)).symm
  | cons chunk rest ih =>
    have ih := ih (n - chunk.size)
    simp only [take, takeFrom, bytes_cons] at ih ⊢
    rw [ByteArray.extract_append, ByteArray.size_append, Nat.add_sub_cancel_left,
      extract_of_size_le (Nat.le_add_right ..)]
    split
    · rename_i h
      rw [Nat.sub_eq_zero_of_le h, bytes_cons, ByteArray.extract_zero_size]
    · rename_i h
      rw [ih, ByteArray.extract_eq_empty_iff.2 (by omega : min chunk.size chunk.size ≤ n),
        ByteArray.empty_append]

theorem ending_take (s : Source) (n : Nat) : (s.take n).2.ending = s.ending := rfl

/-! ### Sizes -/

theorem size_take (s : Source) (n : Nat) : (s.take n).1.size + (s.take n).2.size = s.size := by
  rw [← size_bytes, ← size_bytes, take_fst, bytes_take, ByteArray.size_extract,
    ByteArray.size_extract]
  omega

theorem size_le_of_read {s rest : Source} {n : Nat} {taken : Except SourceEnd ByteArray}
    (h : s.read n = (taken, rest)) : rest.size ≤ s.size := by
  obtain ⟨-, rfl⟩ := Prod.mk.inj h
  exact Nat.le.intro ((Nat.add_comm ..).trans (size_take s n))

theorem size_of_read_ok {s rest : Source} {n : Nat} {taken : ByteArray}
    (h : s.read n = (.ok taken, rest)) : n + rest.size = s.size := by
  obtain ⟨ht, rfl⟩ := Prod.mk.inj h
  split at ht
  · rename_i hn
    exact (congrArg (· + _) hn.symm).trans (size_take s n)
  · cases ht

end Source

/-! ## Sinks -/

structure Sink where
  /-- The bytes taken so far. -/
  written : ByteArray := .empty
  /-- How many bytes it still takes; `none` means any number. -/
  room : Option Nat := none
  /-- Why a full sink fails. Without a reason it takes no byte and does not fail by
  itself. -/
  refusal : Option String := none

namespace Sink

/-- What a writer is told of a full sink. -/
def fullFault (s : Sink) : IoFault :=
  s.refusal.elim .nothingTaken .stream

/-- Writes all the bytes there is room for; fails if some are left. -/
def write (s : Sink) (bytes : ByteArray) : Except Error Unit × Sink :=
  match s.room with
  | none => (.ok (), { s with written := s.written ++ bytes })
  | some room =>
    (if bytes.size ≤ room then .ok () else .error (.io s.fullFault),
      { s with written := s.written ++ bytes.extract 0 room, room := some (room - bytes.size) })

end Sink
end StyleCascade.Channel
