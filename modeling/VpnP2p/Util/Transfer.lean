import VpnP2p.Util.Message

/-!
# An infofile through a message

`read_file_to_buf` asks `fread` for as many bytes as the buffer has and then puts a NUL
behind them, so a file that fills the buffer has its NUL put behind the array, and of a
longer one the rest would be lost. What is shorter is written back byte for byte, NULs
included.
-/

namespace VpnP2p.Util

open Foundation

/-- The file `text` is read into the buffer, with the size that counts the NUL, and
written from there as it was. -/
def Transfers (stale : Nat → Byte) (message : Message) (text : Text) : Prop :=
  ∃ m, readFileToBuf message (some text) = .ok m ∧ m.size.toInt = text.length + 1 ∧
    writeBufToFile stale m (sizeT (m.size - 1)) = .ok text

theorem readFileToBuf_eq_ok {message m : Message} {text : Text}
    (h : readFileToBuf message (some text) = .ok m) : text.length < bufSize ∧
      m.buf.bytes = cbuf text ++ message.buf.bytes.drop (text.length + 1) ∧
      m.size.toInt = text.length + 1 := by
  obtain ⟨buf, hbuf, hm⟩ := bind_eq_ok.mp h
  cases hm
  obtain ⟨hlen, hbytes⟩ := CArray.store_eq_ok hbuf
  refine ⟨hlen, hbytes, Int32.toInt_ofNat_of_lt ?_⟩
  unfold bufSize at hlen
  omega

theorem sizeT_pred {size : Int32} {n : Nat} (hsize : size.toInt = n + 1) :
    sizeT (size - 1) = n := by
  have hlt := Int32.toInt_lt size
  have hone : (1 : Int32).toInt = 1 := rfl
  rw [sizeT, Int32.toInt_sub, hone, hsize, Int.add_sub_cancel, Int.bmod_def]
  split <;> omega

/-- Where the buffer begins with `text`, that is what is written. -/
theorem writeBufToFile_prefix {stale : Nat → Byte} {m : Message} {text : Text} {rest : Buf}
    (hlen : text.length < bufSize) (hbytes : m.buf.bytes = text.map some ++ rest) :
    writeBufToFile stale m text.length = .ok text := by
  have htake : m.buf.bytes.take text.length = text.map some := by
    rw [hbytes, ← List.length_map (f := some), List.take_left]
  have hassigned : (text.map some).mapIdx (fun i b => b.getD (stale i)) = text := by
    rw [List.mapIdx_eq_iff]
    intro i
    simp
  rw [writeBufToFile, if_pos (Nat.le_of_lt hlen), htake, hassigned]

/-- A file comes through exactly when it leaves room for a NUL. -/
theorem transfers_iff (stale : Nat → Byte) (message : Message) (text : Text) :
    Transfers stale message text ↔ text.length < bufSize := by
  constructor
  · rintro ⟨m, hread, -⟩
    exact (readFileToBuf_eq_ok hread).1
  · intro hlen
    obtain ⟨buf, hbuf, -⟩ := message.buf.store_fits hlen
    have hread : readFileToBuf message (some text) =
        .ok { message with buf := buf, size := .ofNat (text.length + 1) } := by
      simp only [readFileToBuf, hbuf, ok_bind]
    obtain ⟨-, hbytes, hsize⟩ := readFileToBuf_eq_ok hread
    refine ⟨_, hread, hsize, ?_⟩
    rw [sizeT_pred hsize]
    rw [cbuf, List.append_assoc] at hbytes
    exact writeBufToFile_prefix hlen hbytes

/-- A file as long as the buffer. -/
theorem not_transfers_full :
    0 ∉ List.replicate (1024 * 64) (97 : Byte) ∧
      ¬ Transfers (fun _ => 0) (.raw 0) (List.replicate (1024 * 64) 97) := by
  refine ⟨fun h => absurd (List.eq_of_mem_replicate h) (by decide), ?_⟩
  rintro ⟨m, hread, -⟩
  have hlen := (readFileToBuf_eq_ok hread).1
  rw [List.length_replicate] at hlen
  exact absurd hlen (Nat.lt_irrefl _)

end VpnP2p.Util
