import SmtpMta.Server.Reading
import SmtpMta.Server.SessionInvariant

/-! The commands of a connection and the stream they come from. As long as no
QUIT ends the session, the commands are the lines that scanning the reads one by
one gives, and the held pieces are what is left. -/
namespace SmtpMta.Server.Framing
open Library.CString Library.Crlf Common.StringUtils Smtp ReadLoop Lines Protocol Reading
  SessionInvariant

/-- Nowhere in the text stands a QUIT, in any case. -/
def QuitFree (text : Bytes) : Prop :=
  ∀ i < text.length, strstartswith (text.drop i) (ascii "QUIT") true = false

instance (text : Bytes) : Decidable (QuitFree text) :=
  inferInstanceAs (Decidable (∀ i < text.length, _))

theorem verbOf_eq_quit {command : Bytes} (h : verbOf command = .quit) :
    strstartswith command (ascii "QUIT") true = true := by
  unfold verbOf at h
  dsimp only at h
  split_ifs at h
  assumption

private theorem strstartswith_go_append {ignoreCase : Bool} {str pre more : Bytes}
    (h : strstartswith.go ignoreCase str pre = true) :
    strstartswith.go ignoreCase (str ++ more) pre = true := by
  induction str generalizing pre with
  | nil =>
    cases pre with
    | nil => simp [strstartswith.go]
    | cons p pre => simp [strstartswith.go] at h
  | cons b str ih =>
    cases pre with
    | nil => simp [strstartswith.go]
    | cons p pre =>
      rw [List.cons_append]
      simp only [strstartswith.go] at h ⊢
      split_ifs at h ⊢ <;> exact ih h

theorem QuitFree.verbOf {text command : Bytes} (h : QuitFree text) (hfree : NulFree text)
    (hinside : command <:+: text) : Protocol.verbOf (strtrim command) ≠ .quit := by
  intro hquit
  have hstarts := verbOf_eq_quit hquit
  have hsub : strtrim command <:+: text := by
    have htrim := strtrim_infix command
    rw [cstr_of_nulFree (hfree.of_sublist hinside.sublist)] at htrim
    exact htrim.trans hinside
  obtain ⟨before, after, hsplit⟩ := hsub
  have hdrop : text.drop before.length = strtrim command ++ after := by
    rw [← hsplit, List.append_assoc, List.drop_left]
  have hfree' : NulFree (strtrim command ++ after) :=
    hfree.of_sublist (hdrop ▸ List.drop_sublist _ _)
  have hfound : strstartswith (text.drop before.length) (ascii "QUIT") true = true := by
    unfold strstartswith at hstarts ⊢
    rw [cstr_of_nulFree (nulFree_append.mp hfree').1] at hstarts
    rw [hdrop, cstr_of_nulFree hfree']
    exact strstartswith_go_append hstarts
  have hlt : before.length < text.length := by
    have hne : strtrim command ≠ [] := by
      intro hnil
      rw [hnil] at hstarts
      exact absurd hstarts (by decide)
    have hpos := List.length_pos_iff.mpr hne
    have hlen := congrArg List.length hsplit
    simp only [List.length_append] at hlen
    omega
  simp [h before.length hlt] at hfound

theorem obey_continues {s : Served} (hopen : s.closed = false) {piece : Bytes}
    (hverb : verbOf (strtrim (s.dialogue.held.flatten ++ piece)) ≠ .quit) :
    ∃ s', obey s piece = some s' ∧ s'.closed = false ∧ s'.dialogue.held = [] ∧
      s'.commands = s.commands ++ [s.dialogue.held.flatten ++ piece] := by
  obtain ⟨ret, reply, d', hanswer⟩ :=
    answer_succeeds (s.dialogue.held.flatten ++ piece) s.dialogue
  have hret := answer_continues hanswer hverb
  refine ⟨_, by rw [obey, hopen]; simp only [Bool.false_eq_true, if_false, hanswer]; rfl, ?_,
    answer_held hanswer, by simp [Served.commands]⟩
  simp [hret]

theorem take_frames (split : List Bytes × Bytes) {s : Served} (hopen : s.closed = false)
    (hverb : ∀ command ∈ (attach s.dialogue.held.flatten split).1,
      verbOf (strtrim command) ≠ .quit) :
    ∃ s', take split s = some s' ∧ s'.closed = false ∧
      s'.commands = s.commands ++ (attach s.dialogue.held.flatten split).1 ∧
      s'.dialogue.held.flatten = (attach s.dialogue.held.flatten split).2 := by
  obtain ⟨pieces, tail⟩ := split
  induction pieces generalizing s with
  | nil =>
    by_cases htail : tail = []
    · exact ⟨s, by simp [take, hold, htail], hopen, by simp [attach], by simp [attach, htail]⟩
    · refine ⟨{ s with dialogue := { s.dialogue with held := s.dialogue.held ++ [tail] } }, ?_, hopen,
        by simp [attach, Served.commands], by simp [attach]⟩
      simp [take, hold, htail, hopen]
  | cons piece pieces ih =>
    simp only [attach, List.forall_mem_cons] at hverb
    obtain ⟨s₁, hobey, hopen₁, hheld₁, hcommands₁⟩ := obey_continues hopen hverb.1
    have hverb₁ : ∀ command ∈ (attach s₁.dialogue.held.flatten (pieces, tail)).1,
        verbOf (strtrim command) ≠ .quit := by
      rw [hheld₁]
      simpa using hverb.2
    obtain ⟨s₂, htake, hopen₂, hcommands₂, hheld₂⟩ := ih hopen₁ hverb₁
    rw [hheld₁, List.flatten_nil, attach_nil] at hcommands₂ hheld₂
    exact ⟨s₂, by rw [take_cons, hobey, Option.bind_some, htake], hopen₂,
      by simp [hcommands₂, hcommands₁, attach], by simp [hheld₂, attach]⟩

theorem read_frames {reads : List Bytes} {s : Served} (hopen : s.closed = false)
    (hverb : ∀ command ∈ (framePieces s.dialogue.held.flatten reads).1,
      verbOf (strtrim command) ≠ .quit) :
    ∃ s', reads.foldlM readText s = some s' ∧ s'.closed = false ∧
      s'.commands = s.commands ++ (framePieces s.dialogue.held.flatten reads).1 ∧
      s'.dialogue.held.flatten = (framePieces s.dialogue.held.flatten reads).2 := by
  induction reads generalizing s with
  | nil => exact ⟨s, rfl, hopen, by simp [framePieces], rfl⟩
  | cons text reads ih =>
    simp only [framePieces, List.mem_append, or_imp, forall_and] at hverb
    have hreset : ({ s with reply := [] } : Served).closed = false := hopen
    obtain ⟨s₁, htake, hopen₁, hcommands₁, hheld₁⟩ := take_frames (scanCrlf false text) hreset hverb.1
    have hsame : ({ s with reply := [] } : Served).commands = s.commands := rfl
    dsimp only at hheld₁
    rw [hsame] at hcommands₁
    obtain ⟨s₂, hfold, hopen₂, hcommands₂, hheld₂⟩ := ih hopen₁ (by rw [hheld₁]; exact hverb.2)
    refine ⟨s₂, ?_, hopen₂, ?_, ?_⟩
    · rw [List.foldlM_cons, readText, if_neg (by simp [hopen]), htake]
      exact hfold
    · simp [hcommands₂, hcommands₁, hheld₁, framePieces]
    · simp [hheld₂, hheld₁, framePieces]

/-- The commands of a connection are the lines of its stream, and the held lines
the bytes behind the last pair, exactly where the stream is well cut. -/
theorem commands_framed (mailPath : Bytes) {w : World} (hoom : ∀ a, w.mem.oom a = false)
    {reads : List Bytes}
    (hreads : ∀ text ∈ reads, text ≠ [] ∧ text.length ≤ serverCommandMaxLen ∧ NulFree text)
    (hquit : QuitFree reads.flatten) :
    ∃ c₀ c, acceptConnection w = some c₀ ∧ serve mailPath c₀ reads = some c ∧ c.closed = false ∧
      ((c.commands = (splitCrlf reads.flatten).1 ∧
          ∃ texts, foreachText c.world.mem c.world.session.buffer = some texts ∧
            texts.flatten = (splitCrlf reads.flatten).2) ↔ WellCut reads) := by
  obtain ⟨c₀, haccept, hshows₀⟩ := acceptConnection_shows hoom
  have hmatches := hshows₀.matches_serve mailPath fun text htext => (hreads text htext).2.1
  have hcstr : reads.map cstr = reads := by
    simpa using List.map_congr_left fun text htext => cstr_of_nulFree (hreads text htext).2.2
  have hfree : NulFree reads.flatten := nulFree_flatten.mpr fun text htext => (hreads text htext).2.2
  have hjoin : joinCrlf (framePieces [] reads).1 (framePieces [] reads).2 = reads.flatten :=
    joinCrlf_framePieces [] reads
  have hverb : ∀ command ∈ (framePieces greeted.dialogue.held.flatten reads).1,
      verbOf (strtrim command) ≠ .quit := fun command hcommand =>
    hquit.verbOf hfree (hjoin ▸ infix_joinCrlf hcommand _)
  obtain ⟨s, hfold, hopen, hcommands, hheld⟩ := read_frames (show greeted.closed = false from rfl) hverb
  rw [hcstr, hfold] at hmatches
  obtain ⟨c, hserve, hshows⟩ := hmatches
  refine ⟨c₀, c, haccept, hserve, hshows.closed.trans hopen, ?_⟩
  obtain ⟨bs, rs, ls, hfits⟩ := hshows.dialogue
  have hbuffer := hfits.buffer.foreachText hfits.length_le.1
  have hlines : c.commands = (framePieces [] reads).1 := by
    rw [hshows.commands, hcommands]
    rfl
  rw [← framePieces_eq_splitCrlf_iff fun text htext => (hreads text htext).1, hlines, hbuffer,
    Prod.ext_iff]
  simp [hheld, greeted, fresh]

theorem commands_framed_noop : ∃ c₀ c, acceptConnection idle = some c₀ ∧
    serve (ascii "./mail") c₀ [ascii "NO", ascii "OP\r\nDA"] = some c ∧ c.closed = false ∧
      ((c.commands = (splitCrlf (List.flatten [ascii "NO", ascii "OP\r\nDA"])).1 ∧
          ∃ texts, foreachText c.world.mem c.world.session.buffer = some texts ∧
            texts.flatten = (splitCrlf (List.flatten [ascii "NO", ascii "OP\r\nDA"])).2) ↔
        WellCut [ascii "NO", ascii "OP\r\nDA"]) :=
  commands_framed (ascii "./mail") (fun _ => rfl) (by decide) (by decide)

/-- A cut inside a pair, and a second CR before a pair, each hide the pair. -/
theorem commands_miss_pair :
    ((acceptConnection idle).bind fun c =>
        serve (ascii "./mail") c [ascii "NOOP\r", ascii "\nEHLO x\r\n"]).map (·.commands) =
      some [ascii "NOOP\r\nEHLO x"] ∧
    splitCrlf (List.flatten [ascii "NOOP\r", ascii "\nEHLO x\r\n"]) =
      ([ascii "NOOP", ascii "EHLO x"], []) ∧
    ((acceptConnection idle).bind fun c =>
        serve (ascii "./mail") c [ascii "NOOP\r\r\n"]).map (·.commands) = some [] ∧
    splitCrlf (ascii "NOOP\r\r\n") = ([ascii "NOOP\r"], []) := by
  decide +kernel

end SmtpMta.Server.Framing
