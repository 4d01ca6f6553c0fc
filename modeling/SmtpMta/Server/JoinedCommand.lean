import SmtpMta.Server.Replies

/-! The block of a joined command. Its size comes from the counter of the
session, and what is written into it from the lines of the session. -/
namespace SmtpMta.Server.JoinedCommand
open Library.CString Common.StringUtils Smtp ReadLoop Lines Protocol Reading SessionInvariant Release
  Replies

/-- A point in the loop over a read: what is left of the read, and the connection. -/
def Reached (mailPath : Bytes) (start : Bytes) (c : Connection) : Prop :=
  ∃ w c₀ reads c₁ input, acceptConnection w = some c₀ ∧ serve mailPath c₀ reads = some c₁ ∧
    Turns mailPath (readBuffer input) { c₁ with world := { c₁.world with reply := [] } } start c

section Loop
variable {mailPath start : Bytes} {c : Connection}

theorem Reached.represents (h : Reached mailPath start c) : ∃ d, Represents c.world d := by
  obtain ⟨w, c₀, reads, c₁, input, haccept, hserve, hturns⟩ := h
  have hpreserved := preserved_represents mailPath
  have h₁ : ∃ d, Represents c₁.world d :=
    hpreserved.serve hserve ⟨_, acceptConnection_represents haccept⟩
  exact hpreserved.turns hturns (hpreserved.clear c₁ h₁)

/-- At every point of every run the counter is the sum of the lengths of the
kept lines, and the block of a command that ends here is filled to its size. -/
theorem joined_command_fits (h : Reached mailPath start c) :
    ∃ texts, foreachText c.world.mem c.world.session.buffer = some texts ∧
      c.world.session.bufferSize = (texts.map List.length).sum ∧
      ∀ fin, strcrlf start = some fin → c.world.mem.oom c.world.mem.brk = false →
        ∃ command w', joinCommand start fin c.world = some (command, w') ∧
          cstr command = texts.flatten ++ (cstr start).take fin ∧
          strlen command = fin + c.world.session.bufferSize ∧
          command.length = fin + c.world.session.bufferSize + 1 := by
  obtain ⟨d, bs, rs, ls, hfits⟩ := h.represents
  refine ⟨d.held, hfits.buffer.foreachText hfits.length_le.1, ?_, fun fin hscan hroom => ?_⟩
  · rw [hfits.size, List.length_flatten]
  · have hfin : fin ≤ strlen start := by
      have hlen := (strcrlf_eq_some hscan).1
      omega
    obtain ⟨command, w', hjoin, htext, hlength, -⟩ := Fits.joinCommand hfits hroom hfin
    refine ⟨command, w', hjoin, htext, ?_, hlength⟩
    rw [strlen, htext, List.length_append, List.length_take_of_le hfin, hfits.size, Nat.add_comm]

end Loop

/-- A command that comes in two reads. -/
theorem joined_command_fits_split : ∃ c command w',
    Reached (ascii "./mail") (readBuffer (ascii "OP\r\n")) c ∧ c.world.session.bufferSize = 2 ∧
      joinCommand (readBuffer (ascii "OP\r\n")) 2 c.world = some (command, w') ∧
      strlen command = 4 ∧ command.length = 5 := by
  have hrun : (((acceptConnection idle).bind fun c₀ => serve (ascii "./mail") c₀ [ascii "NO"]).map
      fun c => (c.world.session.bufferSize, c.world.mem.oom c.world.mem.brk)) = some (2, false) := by
    decide +kernel
  obtain ⟨c₁, hrun, hstate⟩ := Option.map_eq_some_iff.mp hrun
  obtain ⟨c₀, haccept, hserve⟩ := Option.bind_eq_some_iff.mp hrun
  obtain ⟨hsize, hroom⟩ := Prod.mk.inj hstate
  have hreached : Reached (ascii "./mail") (readBuffer (ascii "OP\r\n"))
      { c₁ with world := { c₁.world with reply := [] } } :=
    ⟨idle, c₀, _, c₁, _, haccept, hserve, .refl _ _⟩
  have hscan : strcrlf (readBuffer (ascii "OP\r\n")) = some 2 := by decide +kernel
  obtain ⟨texts, -, -, hjoin⟩ := joined_command_fits hreached
  obtain ⟨command, w', hjoin, -, hlen, hlength⟩ := hjoin 2 hscan hroom
  rw [show Session.bufferSize _ = 2 from hsize] at hlen hlength
  exact ⟨_, command, w', hreached, hsize, hjoin, hlen, hlength⟩

end SmtpMta.Server.JoinedCommand
