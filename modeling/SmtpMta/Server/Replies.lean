import SmtpMta.Server.Reading
import SmtpMta.Server.Release
import SmtpMta.Server.SessionInvariant

/-! What the client gets for the commands of one read. The reply buffer is
cleared once for each read, and sent once for each command. -/
namespace SmtpMta.Server.Replies
open Library.CString Library.Crlf Common.StringUtils Smtp ReadLoop Protocol Reading SessionInvariant
  Release

def replyTexts : List String :=
  ["250\r\n", "250 OK\r\n", "354\r\n", "221 OK\r\n", "500\r\n", "503\r\n",
    "502 Not implemented\r\n", "500 Unknown command\r\n"]

theorem answer_text {alloc : Bool} {command : Bytes} {d d' : Dialogue} {ret : Int}
    {reply : Option String} (h : answer alloc command d = some (ret, reply, d')) :
    (d.state = .mailData ∧ cstr command ≠ ascii "." ∧ alloc = true ∧ reply = none) ∨
      (¬(d.state = .mailData ∧ cstr command ≠ ascii "." ∧ alloc = true) ∧
        ∃ text ∈ replyTexts, reply = some text) := by
  by_cases hstate : d.state = .mailData
  · simp only [answer, hstate, if_true, Option.some_inj, readData] at h
    split_ifs at h with hdot halloc <;> cases h
    · exact .inr ⟨by simp [hdot], "250 OK\r\n", by decide, rfl⟩
    · exact .inl ⟨hstate, hdot, halloc, rfl⟩
    · exact .inr ⟨by simp [halloc], "500\r\n", by decide, rfl⟩
  right
  refine ⟨fun hquiet => hstate hquiet.1, ?_⟩
  simp only [answer, hstate, if_false] at h
  cases hverb : verbOf (strtrim command) with
  | ehlo | vrfy | unknown =>
    rw [hverb] at h
    cases h
    exact ⟨_, by decide, rfl⟩
  | mail =>
    rw [hverb] at h
    dsimp only [mail] at h
    split at h
    · cases h
      exact ⟨_, by decide, rfl⟩
    · split_ifs at h <;> cases h <;> exact ⟨_, by decide, rfl⟩
  | rcpt =>
    rw [hverb] at h
    dsimp only [rcpt] at h
    split at h
    · cases h
      exact ⟨_, by decide, rfl⟩
    · split_ifs at h <;> cases h <;> exact ⟨_, by decide, rfl⟩
  | data =>
    rw [hverb] at h
    dsimp only [data] at h
    split_ifs at h <;> cases h <;> exact ⟨_, by decide, rfl⟩
  | rset =>
    rw [hverb] at h
    dsimp only [rset] at h
    split_ifs at h <;> cases h <;> exact ⟨_, by decide, rfl⟩
  | quit =>
    rw [hverb] at h
    dsimp only [quit] at h
    split_ifs at h <;> cases h <;> exact ⟨_, by decide, rfl⟩

theorem replied_ne_nil {text : String} (h : text ∈ replyTexts) (old : Bytes) :
    replied serverReplyMaxLen (some text) old ≠ [] := by
  have hall : ∀ text ∈ replyTexts, (ascii text).take (serverReplyMaxLen - 1) ≠ [] := by decide
  exact hall text h

/-- What `smtp_process_command` writes into a cleared buffer. -/
def written (mailPath : Bytes) (call : Call) : Option Bytes :=
  (smtpProcessCommand call.command serverReplyMaxLen mailPath
    { call.before with reply := [] }).map (·.2.reply)

/-- A line of a message, with memory to store it. -/
def Silent (call : Call) : Prop :=
  call.before.session.state = .mailData ∧ call.command ≠ ascii "." ∧
    call.before.mem.oom call.before.mem.brk = false

instance (call : Call) : Decidable (Silent call) :=
  inferInstanceAs (Decidable (_ ∧ _))

/-- The calls of one read: each finds the buffer as the one before it left it. -/
inductive Answers (mailPath : Bytes) : Bytes → List Call → Prop where
  | nil {reply : Bytes} : Answers mailPath reply []
  | silent {call : Call} {calls : List Call} : Silent call → written mailPath call = some [] →
      call.after.reply = call.before.reply → Answers mailPath call.after.reply calls →
      Answers mailPath call.before.reply (call :: calls)
  | answered {call : Call} {calls : List Call} : ¬Silent call →
      written mailPath call = some call.after.reply → call.after.reply ≠ [] →
      Answers mailPath call.after.reply calls → Answers mailPath call.before.reply (call :: calls)

section Answers
variable {mailPath reply : Bytes} {calls : List Call}

/-- What is sent for each call, and what each call writes. -/
def sentFor (calls : List Call) : List Bytes :=
  calls.map (·.after.reply)

/-- No line of a message comes after an answer. -/
def InTurn (calls : List Call) : Prop :=
  calls.Pairwise fun earlier later => Silent later → Silent earlier

instance (calls : List Call) : Decidable (InTurn calls) :=
  inferInstanceAs (Decidable (List.Pairwise _ _))

theorem Answers.written_le (h : Answers mailPath reply calls) :
    ∃ replies, calls.mapM (written mailPath) = some replies ∧
      replies.flatten.length ≤ (sentFor calls).flatten.length := by
  induction h with
  | nil => exact ⟨[], rfl, le_rfl⟩
  | silent _ hwritten _ _ ih =>
    obtain ⟨replies, hreplies, hle⟩ := ih
    refine ⟨[] :: replies, by simp [List.mapM_cons, hwritten, hreplies], ?_⟩
    simp only [sentFor, List.map_cons, List.flatten_cons, List.length_append] at hle ⊢
    simp only [List.length_nil]
    omega
  | answered _ hwritten _ _ ih =>
    obtain ⟨replies, hreplies, hle⟩ := ih
    refine ⟨_ :: replies, by simp [List.mapM_cons, hwritten, hreplies]; rfl, ?_⟩
    simp only [sentFor, List.map_cons, List.flatten_cons, List.length_append] at hle ⊢
    omega

theorem Answers.sent_iff (h : Answers mailPath reply calls) {replies : List Bytes}
    (hreplies : calls.mapM (written mailPath) = some replies) :
    (sentFor calls).flatten = replies.flatten ↔
      InTurn calls ∧ (reply ≠ [] → ∀ call ∈ calls, ¬Silent call) := by
  induction h generalizing replies with
  | nil =>
    obtain rfl : [] = replies := by simpa using hreplies
    simp [sentFor, InTurn]
  | @silent call calls hsilent hwritten hsame hrest ih =>
    obtain ⟨rest, hmap, hle⟩ := hrest.written_le
    obtain rfl : [] :: rest = replies := by simpa [List.mapM_cons, hwritten, hmap] using hreplies
    have hturn : InTurn (call :: calls) ↔ InTurn calls := by simp [InTurn, hsilent]
    by_cases hempty : call.before.reply = []
    · have hiff := ih hmap
      rw [hsame, hempty] at hiff
      simpa [sentFor, hsame, hempty, hturn] using hiff
    · -- the stale answer is sent once more
      refine iff_of_false (fun heq => ?_) (fun hright => hright.2 hempty call (by simp) hsilent)
      have hlength := congrArg List.length heq
      have hpos := List.length_pos_iff.mpr hempty
      simp only [sentFor, List.map_cons, List.flatten_cons, List.length_append, hsame,
        List.length_nil] at hlength hle
      omega
  | @answered call calls hanswered hwritten hne hrest ih =>
    obtain ⟨rest, hmap, -⟩ := hrest.written_le
    obtain rfl : call.after.reply :: rest = replies := by
      simpa [List.mapM_cons, hwritten, hmap] using hreplies
    have hiff := ih hmap
    have hturn : InTurn (call :: calls) ↔ (∀ later ∈ calls, ¬Silent later) ∧ InTurn calls := by
      simp [InTurn, hanswered]
    have hsame : (sentFor (call :: calls)).flatten = (call.after.reply :: rest).flatten ↔
        (sentFor calls).flatten = rest.flatten := by simp [sentFor]
    rw [hsame, hiff, hturn]
    simp only [List.forall_mem_cons]
    tauto

end Answers

section Loop
variable {mailPath : Bytes} {w : World} {d : Dialogue} {c c' : Connection}

theorem bufferLine_represents (h : Represents w d) (start : Bytes) :
    ∃ w' d', bufferLine start w = some w' ∧ Represents w' d' := by
  obtain ⟨bs, rs, ls, hfits⟩ := h
  cases hoom : w.mem.oom w.mem.brk with
  | true =>
    refine ⟨{ w with mem := { w.mem with brk := w.mem.brk + 1 } }, d, ?_, bs, rs, ls,
      hfits.malloc.1⟩
    simp only [bufferLine, Memory.malloc, hoom, if_true]
  | false =>
    obtain ⟨w', hline, hfits', -, -, -⟩ := Fits.bufferLine hfits hoom start
    exact ⟨w', _, hline, _, _, _, hfits'⟩

theorem joinCommand_represents (h : Represents w d) {start command : Bytes} {fin : Nat} {w' : World}
    (hfin : fin ≤ strlen start) (hjoin : joinCommand start fin w = some (command, w')) :
    Represents w' d ∧ w'.reply = w.reply := by
  obtain ⟨bs, rs, ls, hfits⟩ := h
  cases hoom : w.mem.oom w.mem.brk with
  | true => simp [joinCommand, Memory.malloc, hoom] at hjoin
  | false =>
    obtain ⟨command', w₁, hjoin', -, -, hfits', -, -, hreply⟩ := Fits.joinCommand hfits hoom hfin
    obtain ⟨-, rfl⟩ := Prod.mk.inj (Option.some.inj (hjoin.symm.trans hjoin'))
    exact ⟨⟨bs, rs, ls, hfits'⟩, hreply⟩

theorem call_answers (h : Represents w d) {command : Bytes} {ret : Int} {w' : World}
    (hcall : smtpProcessCommand command serverReplyMaxLen mailPath w = some (ret, w'))
    {calls : List Call} (hrest : Answers mailPath w'.reply calls) :
    (∃ d', Represents w' d') ∧ Answers mailPath w.reply (⟨w, cstr command, w'⟩ :: calls) := by
  have hfollows := h.processCommand command serverReplyMaxLen mailPath
  have hclear : Represents { w with reply := [] } d := h.reply []
  have hwrites := hclear.processCommand (cstr command) serverReplyMaxLen mailPath
  rw [answer_cstr] at hwrites
  cases hanswer : answer (!w.mem.oom w.mem.brk) command d with
  | none =>
    rw [hanswer, hcall] at hfollows
    cases hfollows
  | some answered =>
    obtain ⟨ret', text, d'⟩ := answered
    rw [hanswer, hcall] at hfollows
    rw [hanswer] at hwrites
    obtain ⟨w₁, heq, hrep, -, hreply⟩ := hfollows
    obtain ⟨w₂, hwrite, -, -, hreply₂⟩ := hwrites
    obtain ⟨-, rfl⟩ := Prod.mk.inj (Option.some.inj heq)
    have hwritten : written mailPath ⟨w, cstr command, w'⟩ =
        some (replied serverReplyMaxLen text []) := by
      rw [written, hwrite, Option.map_some, hreply₂]
    have hnext : Answers mailPath (Call.mk w (cstr command) w').after.reply calls := hrest
    refine ⟨⟨d', hrep⟩, ?_⟩
    have hstate : w.session.state = d.state := h.state_eq
    rcases answer_text hanswer with ⟨hdata, hline, halloc, rfl⟩ | ⟨hno, text, hmem, rfl⟩
    · refine .silent ⟨hstate.trans hdata, hline, by simpa using halloc⟩ hwritten hreply hnext
    · refine .answered (fun hsilent => hno ?_) ?_ ?_ hnext
      · exact ⟨hstate.symm.trans hsilent.1, hsilent.2.1, by simpa using hsilent.2.2⟩
      · rw [hwritten, hreply]
        rfl
      · rw [hreply]
        exact replied_ne_nil hmem _

theorem commandLoop_answers {bound : Nat} {start : Bytes} (h : Represents c.world d)
    (hloop : commandLoop mailPath bound start c = some c') :
    ∃ calls, c'.calls = c.calls ++ calls ∧ c'.sent = c.sent ++ (sentFor calls).flatten ∧
      Answers mailPath c.world.reply calls ∧ ∃ d', Represents c'.world d' := by
  induction bound generalizing start c d with
  | zero => cases hloop
  | succ bound ih =>
    rw [commandLoop] at hloop
    split_ifs at hloop with hempty hclosed
    · obtain rfl := Option.some.inj hloop
      exact ⟨[], by simp, by simp [sentFor], .nil, d, h⟩
    split at hloop
    · obtain ⟨w', d', hline, hrep⟩ := bufferLine_represents h start
      rw [hline] at hloop
      obtain rfl := Option.some.inj hloop
      exact ⟨[], by simp, by simp [sentFor], .nil, d', hrep⟩
    · rename_i fin hscan
      obtain ⟨hlen, -⟩ := strcrlf_eq_some hscan
      obtain ⟨⟨command, w⟩, hjoin, hloop⟩ := Option.bind_eq_some_iff.mp hloop
      obtain ⟨⟨ret, w'⟩, hcall, hloop⟩ := Option.bind_eq_some_iff.mp hloop
      obtain ⟨hrep, hreply⟩ := joinCommand_represents h (by omega) hjoin
      obtain ⟨⟨d', hrep'⟩, -⟩ := call_answers hrep hcall .nil
      obtain ⟨calls, hcalls, hsent, hanswers, hlast⟩ := ih hrep' hloop
      obtain ⟨-, hall⟩ := call_answers hrep hcall hanswers
      refine ⟨⟨w, cstr command, w'⟩ :: calls, by simp [hcalls], ?_, hreply ▸ hall, hlast⟩
      simp [hsent, sentFor]

theorem serveRead_answers {input : Bytes} (h : Represents c.world d)
    (hread : serveRead mailPath c input = some c') :
    ∃ calls, c'.calls = c.calls ++ calls ∧ c'.sent = c.sent ++ (sentFor calls).flatten ∧
      Answers mailPath [] calls ∧ ∃ d', Represents c'.world d' := by
  unfold serveRead at hread
  split_ifs at hread
  · obtain rfl := Option.some.inj hread
    exact ⟨[], by simp, by simp [sentFor], .nil, d, h⟩
  · have hclear : Represents { c.world with reply := [] } d := h.reply []
    have hopen : Represents (Connection.world { c with world := { c.world with reply := [] } }) d :=
      hclear
    exact commandLoop_answers hopen hread

theorem turn_represents {start start' : Bytes} (h : Represents c.world d)
    (hturn : turn mailPath start c = some (start', c')) : ∃ d', Represents c'.world d' := by
  obtain ⟨fin, command, w, ret, w', hscan, hjoin, hcall, -, rfl⟩ := turn_cases hturn
  have hlen := (strcrlf_eq_some hscan).1
  obtain ⟨hrep, -⟩ := joinCommand_represents h (by omega) hjoin
  exact (call_answers hrep hcall .nil).1

theorem preserved_represents (mailPath : Bytes) :
    Preserved mailPath fun c => ∃ d, Represents c.world d where
  clear := fun c ⟨d, h⟩ => ⟨d, h.reply []⟩
  line := fun start c world ⟨d, h⟩ hline => by
    obtain ⟨w', d', hline', hrep⟩ := bufferLine_represents h start
    obtain rfl := Option.some.inj (hline.symm.trans hline')
    exact ⟨d', hrep⟩
  turn := fun start c start' c' ⟨d, h⟩ hturn => turn_represents h hturn

theorem serve_represents {reads : List Bytes} (h : Represents c.world d)
    (hserve : serve mailPath c reads = some c') : ∃ d', Represents c'.world d' :=
  (preserved_represents mailPath).serve hserve ⟨d, h⟩

theorem acceptConnection_represents (haccept : acceptConnection w = some c) :
    Represents c.world (fresh .initial) := by
  have hfits : Represents { w with session := newSession, reply := [] } (fresh .initial) :=
    ⟨[], [], [], fits_fresh rfl⟩
  obtain ⟨w', hstart, hrep, -, -⟩ := hfits.startSession serverReplyMaxLen
  simp only [acceptConnection, hstart, Option.bind_eq_bind, Option.bind_some] at haccept
  obtain rfl := Option.some.inj haccept
  exact hrep

/-- The bytes sent for a read are what its commands write, in order, if and
only if no stored line of a message follows an answer in that read. -/
theorem one_reply_per_command {mailPath : Bytes} {w : World} {c₀ c c' : Connection}
    {reads : List Bytes} {input : Bytes} (haccept : acceptConnection w = some c₀)
    (hserve : serve mailPath c₀ reads = some c) (hread : serveRead mailPath c input = some c') :
    ∃ calls replies, c'.calls = c.calls ++ calls ∧ calls.mapM (written mailPath) = some replies ∧
      (c'.sent = c.sent ++ replies.flatten ↔ InTurn calls) := by
  obtain ⟨d, hrep⟩ := serve_represents (acceptConnection_represents haccept) hserve
  obtain ⟨calls, hcalls, hsent, hanswers, -⟩ := serveRead_answers hrep hread
  obtain ⟨replies, hreplies, -⟩ := hanswers.written_le
  refine ⟨calls, replies, hcalls, hreplies, ?_⟩
  rw [hsent, List.append_cancel_left_eq, hanswers.sent_iff hreplies]
  simp

theorem one_reply_per_command_idle : ∃ c₀ c', acceptConnection idle = some c₀ ∧
    serveRead (ascii "./mail") c₀ (ascii "EHLO x\r\nNOOP\r\n") = some c' ∧
      ∃ calls replies, c'.calls = c₀.calls ++ calls ∧
        calls.mapM (written (ascii "./mail")) = some replies ∧
        (c'.sent = c₀.sent ++ replies.flatten ↔ InTurn calls) := by
  have hrun : ((acceptConnection idle).bind fun c₀ =>
      serveRead (ascii "./mail") c₀ (ascii "EHLO x\r\nNOOP\r\n")).isSome = true := by
    decide +kernel
  obtain ⟨c', hrun⟩ := Option.isSome_iff_exists.mp hrun
  obtain ⟨c₀, haccept, hread⟩ := Option.bind_eq_some_iff.mp hrun
  have hserve : serve (ascii "./mail") c₀ [] = some c₀ := rfl
  exact ⟨c₀, c', haccept, hread, one_reply_per_command haccept hserve hread⟩

/-- The first line of a message sends the answer to DATA again. -/
theorem data_line_answered :
    ((acceptConnection idle).bind fun c₀ =>
        serveRead (ascii "./mail") c₀
          (ascii "EHLO x\r\nMAIL FROM:<a@b>\r\nRCPT TO:<c@d>\r\nDATA\r\nhi\r\n")).map (fun c =>
      (c.sent, (c.calls.mapM (written (ascii "./mail"))).map List.flatten)) =
      some (ascii "220\r\n250\r\n250 OK\r\n250\r\n354\r\n354\r\n",
        some (ascii "250\r\n250 OK\r\n250\r\n354\r\n")) := by
  decide +kernel

end Loop

end SmtpMta.Server.Replies
