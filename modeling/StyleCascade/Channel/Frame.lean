import StyleCascade.Channel.Stream

/-!
# Frames

A message travels as a frame: four bytes that give its size, the highest first, then
its bytes. A stream that ends before a size is complete has been closed between
messages; one that ends later has broken off.
-/
namespace StyleCascade.Channel.Frame

/-- The greatest size of a message. -/
def limit : Nat := 64 * 1024 * 1024

/-- A size in four bytes. -/
def header (size : Nat) : ByteArray :=
  ⟨#[UInt8.ofNat (size >>> 24), UInt8.ofNat (size >>> 16), UInt8.ofNat (size >>> 8),
    UInt8.ofNat size]⟩

/-- The size that a header gives. -/
def sizeOfHeader (header : ByteArray) : Nat :=
  header.data.toList.foldl (fun n b => 256 * n + b.toNat) 0

theorem size_header (n : Nat) : (header n).size = 4 := rfl

theorem sizeOfHeader_header {n : Nat} (h : n < 0x100000000) : sizeOfHeader (header n) = n := by
  simp only [sizeOfHeader, header, List.foldl, UInt8.toNat_ofNat']
  omega

/-- A message as it stands in a stream. -/
def encode (payload : ByteArray) : ByteArray :=
  header payload.size ++ payload

/-! ## Writing -/

/-- Writes a message, its header first. One that is too large leaves the sink as it is. -/
def write (sink : Sink) (payload : ByteArray) : Except Error Unit × Sink :=
  if limit < payload.size then (.error (.frameTooLarge payload.size), sink)
  else
    match sink.write (header payload.size) with
    | (.error e, sink) => (.error e, sink)
    | (.ok (), sink) => sink.write payload

/-! ## Reading -/

/-- Reads the bytes of a message whose size is known. -/
def readBody (source : Source) (size : Nat) : Except Error ByteArray × Source :=
  match source.read size with
  | (.ok payload, source) => (.ok payload, source)
  | (.error .closed, source) => (.error (.io .bodyCutShort), source)
  | (.error (.failing reason), source) => (.error (.io (.stream reason)), source)

/-- Reads a message. -/
def read (source : Source) : Except Error ByteArray × Source :=
  match source.read 4 with
  | (.ok header, source) =>
    let size := sizeOfHeader header
    if limit < size then (.error (.frameTooLarge size), source) else readBody source size
  | (.error .closed, source) => (.error .closed, source)
  | (.error (.failing reason), source) => (.error (.io (.stream reason)), source)

/-! ### A message takes bytes from the source -/

theorem size_le_of_readBody {s rest : Source} {n : Nat} {r : Except Error ByteArray}
    (h : readBody s n = (r, rest)) : rest.size ≤ s.size := by
  unfold readBody at h
  split at h <;> rename_i hr <;> obtain ⟨-, rfl⟩ := Prod.mk.inj h <;>
    exact Source.size_le_of_read hr

theorem size_lt_of_read {s rest : Source} {payload : ByteArray}
    (h : read s = (.ok payload, rest)) : rest.size < s.size := by
  unfold read at h
  split at h
  · rename_i hr
    have hs := Source.size_of_read_ok hr
    dsimp only at h
    split at h
    · cases h
    · have := size_le_of_readBody h
      omega
  · cases h
  · cases h

/-- Reads messages until that fails: the messages, and the failure. -/
def readAll (source : Source) : List ByteArray × Error × Source :=
  match h : read source with
  | (.error e, rest) => ([], e, rest)
  | (.ok payload, rest) =>
    have := size_lt_of_read h
    let (payloads, e, rest) := readAll rest
    (payload :: payloads, e, rest)
termination_by source.size

end StyleCascade.Channel.Frame
