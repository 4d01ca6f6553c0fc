import SmtpMta.Client.MailFile

/-! Files of any length in the array of `read_file`. `init_mail_text` clears as many
bytes as the array has slots, but the occupancy test of `copy_str_to_arr` and the walk
of `clear_mail_text` take every slot for cleared. -/
namespace SmtpMta.Client.FileSlots
open Library.CString Library.Stdio MailFile

inductive Reading (s : Surroundings) (file : Bytes) : Bytes → Slots → Nat → Prop where
  | start (room : s.room = true) : Reading s file file (memsetSlots maxStrCount s.memory) 0
  | next {rest rest' chunk : Bytes} {arr arr' : Slots} {pos : Nat}
    (before : Reading s file rest arr pos) (line : fgets maxStrLength rest = some (chunk, rest'))
    (copied : copyStrToArr (s.chunkRoom pos) (chunk ++ [nul]) (some arr) pos = some (0, some arr')) :
    Reading s file rest' arr' (pos + 1)

/-- The array is released from this position: at the end of the file, by `read_file`
or later, or because a chunk was not stored. -/
def Released (s : Surroundings) (rest : Bytes) (arr : Slots) (pos : Nat) : Prop :=
  ∀ chunk rest', fgets maxStrLength rest = some (chunk, rest') →
    ∃ ret, ret ≠ 0 ∧ copyStrToArr (s.chunkRoom pos) (chunk ++ [nul]) (some arr) pos = some (ret, some arr)

section Walk
variable {arr : Slots}

end Walk

section Loop
variable {s : Surroundings} {file rest : Bytes} {arr base : Slots} {chunks : List Bytes} {pos : Nat}

theorem Reading.run (h : Reading s file rest arr pos) :
    ∃ bound, rest.length ≤ bound ∧ readChunks s (file.length + 1) file (initMailText s) 0 =
      readChunks s (bound + 1) rest (some arr) pos := by
  induction h with
  | start hroom => exact ⟨file.length, le_rfl, by rw [initMailText, if_pos hroom]⟩
  | @next rest rest' chunk arr arr' pos before hline hcopied ih =>
    obtain ⟨bound, hbound, hrun⟩ := ih
    have hshorter := fgets_shorter (by decide) hline
    obtain ⟨bound, rfl⟩ := Nat.exists_eq_succ_of_ne_zero (show bound ≠ 0 by omega)
    refine ⟨bound, by omega, ?_⟩
    rw [hrun, readChunks, hline]
    simp [hcopied]

end Loop

section Whole
variable {s : Surroundings} {file : Bytes} {chunks : List Bytes}

end Whole

end SmtpMta.Client.FileSlots
