import SmtpMta.Client.SelectLoop
import Mathlib.Data.List.Nodup

/-! The descriptors of a start that fails: the sockets that `connections_start`
opens, and the numbers that `clear_connections` closes. -/
namespace SmtpMta.Client.Descriptors
open MailFile MailParser SelectLoop

/-- A connection with its field `socket`: `init_connection` leaves what `malloc` finds there. -/
structure Held where
  connection : Connection
  socket : Int

/-- What `socket` and `connect` return for a connection. -/
structure Attempt where
  socket : Int
  connect : Int

def Attempt.Connects (a : Attempt) : Prop :=
  0 ≤ a.socket ∧ 0 ≤ a.connect

instance (a : Attempt) : Decidable a.Connects :=
  inferInstanceAs (Decidable (_ ∧ _))

/-- `init_connections`, when all allocations succeed. -/
def initHeld (env : Environment) (mails : List Mail) (found : Nat → Int) : List Held :=
  (initConnections env mails).mapIdx fun k connection => ⟨connection, found k⟩

/-- The return value, the connection, and the descriptor that is opened. The system
gives out a number that no open descriptor has. -/
def connectionStart (taken : List Int) (a : Attempt) (c : Held) :
    Option (Int × Held × List Int) :=
  if a.socket < 0 then some (-1, c, [])
  else if a.socket ∈ taken then none
  else do
    let _ ← c.connection.host.read
    if a.connect < 0 then some (-1, c, [a.socket])
    else some (0, { c with socket := a.socket }, [a.socket])

/-- `connections_start`. The machine that takes the error has no part in this. -/
def connectionsStart (attempt : Nat → Attempt) :
    List Int → Nat → List Held → Option (Int × List Held × List Int)
  | _, _, [] => some (0, [], [])
  | taken, k, c :: connections => do
    let (ret, c, opened) ← connectionStart taken (attempt k) c
    if ret ≠ 0 then some (-1, c :: connections, opened)
    else
      let (ret, connections, more) ← connectionsStart attempt (opened ++ taken) (k + 1) connections
      some (ret, c :: connections, opened ++ more)

/-- The descriptors for which `clear_connection` calls `close`. -/
def clearConnection (c : Held) : List Int :=
  if c.socket ≠ 0 then [c.socket] else []

def clearConnections (connections : List Held) : List Int :=
  connections.flatMap clearConnection

structure ClosesOwn (before opened closed : List Int) : Prop where
  once : ∀ fd ∈ opened, closed.count fd = 1
  others : ∀ fd ∈ closed, fd ∉ opened → fd ∉ before

def started (attempt : Nat → Attempt) (first n : Nat) : List Int :=
  (List.range' first n).map fun k => (attempt k).socket

/-- The socket of a connection that fails, if there is one. -/
def refused (a : Attempt) : List Int :=
  if a.socket < 0 then [] else [a.socket]

/-- What is found in the fields of the connections that were not started makes up
for the descriptor that nothing refers to, and does no harm. -/
structure Harmless (before started refused found : List Int) : Prop where
  nonzero : ∀ fd ∈ started ++ refused, fd ≠ 0
  apart : ∀ fd ∈ started, fd ∉ found
  once : ∀ fd ∈ refused, found.count fd = 1
  free : ∀ fd ∈ found, fd ≠ 0 → fd ∉ before

section Start
variable {attempt : Nat → Attempt}

theorem connectionStart_fails {taken opened : List Int} {a : Attempt} {c c' : Held} {ret : Int}
    (h : connectionStart taken a c = some (ret, c', opened)) (hfails : ¬a.Connects) :
    ret = -1 ∧ c' = c ∧ opened = refused a ∧ ∀ fd ∈ opened, fd ∉ taken := by
  unfold connectionStart at h
  split at h
  · rename_i hsocket
    simp only [Option.some.injEq, Prod.mk.injEq] at h
    obtain ⟨rfl, rfl, rfl⟩ := h
    simp [refused, hsocket]
  split at h
  · cases h
  · rename_i hsocket hfree
    obtain ⟨host, -, h⟩ := Option.bind_eq_some_iff.mp h
    have hconnect : a.connect < 0 := by
      unfold Attempt.Connects at hfails
      omega
    rw [if_pos hconnect] at h
    simp only [Option.some.injEq, Prod.mk.injEq] at h
    obtain ⟨rfl, rfl, rfl⟩ := h
    simp [refused, hsocket, hfree]

theorem connectionStart_connects {taken opened : List Int} {a : Attempt} {c c' : Held} {ret : Int}
    (h : connectionStart taken a c = some (ret, c', opened)) (hconnects : a.Connects) :
    ret = 0 ∧ c' = { c with socket := a.socket } ∧ opened = [a.socket] ∧ a.socket ∉ taken := by
  obtain ⟨hsocket, hconnect⟩ := hconnects
  rw [connectionStart, if_neg (Int.not_lt.mpr hsocket)] at h
  split at h
  · cases h
  · rename_i hfree
    obtain ⟨host, -, h⟩ := Option.bind_eq_some_iff.mp h
    rw [if_neg (Int.not_lt.mpr hconnect)] at h
    simp only [Option.some.injEq, Prod.mk.injEq] at h
    obtain ⟨rfl, rfl, rfl⟩ := h
    exact ⟨rfl, rfl, rfl, hfree⟩

theorem connectionsStart_cons_fails {taken opened : List Int} {k : Nat} {c : Held}
    {connections connections' : List Held} {ret : Int} (hfails : ¬(attempt k).Connects)
    (h : connectionsStart attempt taken k (c :: connections) = some (ret, connections', opened)) :
    ret = -1 ∧ connections' = c :: connections ∧ opened = refused (attempt k) ∧
      ∀ fd ∈ opened, fd ∉ taken := by
  obtain ⟨⟨ret₁, c', opened₁⟩, hstart, h⟩ := Option.bind_eq_some_iff.mp h
  obtain ⟨rfl, rfl, rfl, hfree⟩ := connectionStart_fails hstart hfails
  dsimp only at h
  rw [if_pos (by decide)] at h
  simp only [Option.some.injEq, Prod.mk.injEq] at h
  obtain ⟨rfl, rfl, rfl⟩ := h
  exact ⟨rfl, rfl, rfl, hfree⟩

theorem connectionsStart_cons_connects {taken opened : List Int} {k : Nat} {c : Held}
    {connections connections' : List Held} {ret : Int} (hconnects : (attempt k).Connects)
    (h : connectionsStart attempt taken k (c :: connections) = some (ret, connections', opened)) :
    ∃ rest more, connectionsStart attempt ((attempt k).socket :: taken) (k + 1) connections =
        some (ret, rest, more) ∧
      connections' = { c with socket := (attempt k).socket } :: rest ∧
      opened = (attempt k).socket :: more ∧ (attempt k).socket ∉ taken := by
  obtain ⟨⟨ret₁, c', opened₁⟩, hstart, h⟩ := Option.bind_eq_some_iff.mp h
  obtain ⟨rfl, rfl, rfl, hfree⟩ := connectionStart_connects hstart hconnects
  dsimp only at h
  rw [if_neg (by simp)] at h
  obtain ⟨⟨ret', rest, more⟩, hrest, h⟩ := Option.bind_eq_some_iff.mp h
  simp only [Option.some.injEq, Prod.mk.injEq] at h
  obtain ⟨rfl, rfl, rfl⟩ := h
  exact ⟨rest, more, hrest, rfl, rfl, hfree⟩

theorem connectionsStart_fails {taken opened : List Int} {first n : Nat} {ret : Int}
    {connections connections' : List Held}
    (h : connectionsStart attempt taken first connections = some (ret, connections', opened))
    (hn : n < connections.length) (hconnects : ∀ k < n, (attempt (first + k)).Connects)
    (hfails : ¬(attempt (first + n)).Connects) :
    ret = -1 ∧ opened = started attempt first n ++ refused (attempt (first + n)) ∧
      connections'.map Held.socket =
        started attempt first n ++ (connections.drop n).map Held.socket ∧
      opened.Nodup ∧ ∀ fd ∈ opened, fd ∉ taken := by
  induction n generalizing taken first connections connections' ret opened with
  | zero =>
    obtain ⟨c, connections, rfl⟩ := List.exists_cons_of_length_pos hn
    obtain ⟨rfl, rfl, rfl, hfree⟩ := connectionsStart_cons_fails hfails h
    have hnodup : (refused (attempt (first + 0))).Nodup := by
      unfold refused
      split <;> simp
    exact ⟨rfl, rfl, rfl, hnodup, hfree⟩
  | succ n ih =>
    obtain ⟨c, connections, rfl⟩ := List.exists_cons_of_length_pos (Nat.zero_lt_of_lt hn)
    obtain ⟨rest, more, hrest, rfl, rfl, hfree⟩ :=
      connectionsStart_cons_connects (hconnects 0 (Nat.succ_pos n)) h
    have hnext (k : Nat) : first + 1 + k = first + (k + 1) := by omega
    obtain ⟨rfl, rfl, hsockets, hnodup, hfresh⟩ := ih hrest (by simpa using hn)
      (fun k hk => by rw [hnext]; exact hconnects (k + 1) (by omega)) (by rwa [hnext])
    have hstarted : started attempt first (n + 1) =
        (attempt first).socket :: started attempt (first + 1) n := rfl
    rw [hnext] at hnodup hfresh ⊢
    refine ⟨rfl, by simp [hstarted], by simp [hstarted, hsockets], ?_, ?_⟩
    · refine List.nodup_cons.mpr ⟨fun hmem => ?_, hnodup⟩
      exact hfresh _ hmem (by simp)
    · intro fd hfd htaken
      rcases List.mem_cons.mp hfd with rfl | hfd
      · exact hfree htaken
      · exact hfresh fd hfd (by simp [htaken])

theorem connectionsStart_refines {env : Environment} {taken opened : List Int} {k : Nat}
    {connections connections' : List Held} {ret : Int}
    (henv : ∀ k host port, env.connect k host port =
      if (attempt k).Connects then some (attempt k).socket.toNat else none)
    (hread : ∀ c ∈ connections, ∃ host, c.connection.host.read = some host)
    (h : connectionsStart attempt taken k connections = some (ret, connections', opened)) :
    (ret = 0 ∧ SelectLoop.connectionsStart env k (connections.map Held.connection) =
        some (.inl (connections'.map fun c => { c.connection with socket := c.socket.toNat }))) ∨
      (ret = -1 ∧ ∃ failed,
        SelectLoop.connectionsStart env k (connections.map Held.connection) =
          some (.inr failed)) := by
  induction connections generalizing taken k connections' ret opened with
  | nil =>
    simp only [connectionsStart, Option.some.injEq, Prod.mk.injEq] at h
    obtain ⟨rfl, rfl, rfl⟩ := h
    exact .inl ⟨rfl, rfl⟩
  | cons c connections ih =>
    obtain ⟨host, hhost⟩ := hread c (by simp)
    by_cases hconnects : (attempt k).Connects
    · obtain ⟨rest, more, hrest, rfl, rfl, -⟩ := connectionsStart_cons_connects hconnects h
      rcases ih (fun c hc => hread c (by simp [hc])) hrest with
        ⟨rfl, hloop⟩ | ⟨rfl, failed, hloop⟩
      · exact .inl ⟨rfl, by simp [SelectLoop.connectionsStart, hhost, henv, hconnects, hloop]⟩
      · exact .inr ⟨rfl, failed, by
          simp [SelectLoop.connectionsStart, hhost, henv, hconnects, hloop]⟩
    · obtain ⟨rfl, rfl, rfl, -⟩ := connectionsStart_cons_fails hconnects h
      exact .inr ⟨rfl, _, by
        simp only [List.map_cons, SelectLoop.connectionsStart, hhost, henv, hconnects, if_false,
          Option.bind_eq_bind, Option.bind_some]
        rfl⟩

theorem clearConnections_eq (connections : List Held) :
    clearConnections connections = (connections.map Held.socket).filter (· ≠ 0) := by
  induction connections with
  | nil => rfl
  | cons c connections ih =>
    rw [clearConnections, List.flatMap_cons, ← clearConnections, ih, clearConnection]
    by_cases h : c.socket = 0 <;> simp [h]

end Start

section Closing
variable {before begun failed found : List Int}

theorem closesOwn_iff (hnodup : (begun ++ failed).Nodup)
    (hfresh : ∀ fd ∈ begun ++ failed, fd ∉ before) :
    ClosesOwn before (begun ++ failed) ((begun ++ found).filter (· ≠ 0)) ↔
      Harmless before begun failed found := by
  have hcount {fd : Int} (h : fd ≠ 0) : ((begun ++ found).filter (· ≠ 0)).count fd =
      begun.count fd + found.count fd := by
    rw [List.count_filter (by simpa using h), List.count_append]
  have hzero : ((begun ++ found).filter (· ≠ 0)).count 0 = 0 := by
    rw [List.count_eq_zero]
    simp
  rw [List.nodup_append] at hnodup
  obtain ⟨hstarted, -, hapart⟩ := hnodup
  have hone {fd : Int} (h : fd ∈ begun) : begun.count fd = 1 :=
    List.count_eq_one_of_mem hstarted h
  have hnone {fd : Int} (h : fd ∈ failed) : begun.count fd = 0 :=
    List.count_eq_zero.mpr fun hmem => hapart fd hmem fd h rfl
  constructor
  · intro h
    have hnonzero : ∀ fd ∈ begun ++ failed, fd ≠ 0 := by
      rintro fd hfd rfl
      have hclosed := h.once 0 hfd
      omega
    constructor
    case nonzero => exact hnonzero
    case apart =>
      intro fd hfd hfound
      have hclosed := h.once fd (by simp [hfd])
      rw [hcount (hnonzero fd (by simp [hfd])), hone hfd] at hclosed
      have hpos := List.count_pos_iff.mpr hfound
      omega
    case once =>
      intro fd hfd
      have hclosed := h.once fd (by simp [hfd])
      rw [hcount (hnonzero fd (by simp [hfd])), hnone hfd] at hclosed
      omega
    case free =>
      intro fd hfd hfd₀
      by_cases hown : fd ∈ begun ++ failed
      · exact hfresh fd hown
      · exact h.others fd (by simp [hfd, hfd₀]) hown
  · intro h
    constructor
    case once =>
      intro fd hfd
      rw [hcount (h.nonzero fd hfd)]
      rcases List.mem_append.mp hfd with hfd | hfd
      · rw [hone hfd, List.count_eq_zero.mpr (h.apart fd hfd)]
      · rw [hnone hfd, h.once fd hfd]
    case others =>
      intro fd hfd hother
      obtain ⟨hmem, hfd₀⟩ := List.mem_filter.mp hfd
      rcases List.mem_append.mp hmem with hmem | hmem
      · exact absurd (by simp [hmem]) hother
      · exact h.free fd hmem (by simpa using hfd₀)

end Closing

/-- After a start that fails at some connection, the descriptors that it opened are
closed, and no others, exactly if the fields that were not set are harmless. -/
theorem closes_own_iff {env : Environment} {mails : List Mail} {found : Nat → Int}
    {attempt : Nat → Attempt} {before opened : List Int} {k : Nat} {ret : Int}
    {connections : List Held} (hk : k < (initHeld env mails found).length)
    (hconnects : ∀ j < k, (attempt j).Connects) (hfails : ¬(attempt k).Connects)
    (h : connectionsStart attempt before 0 (initHeld env mails found) =
      some (ret, connections, opened)) :
    ret ≠ 0 ∧ (ClosesOwn before opened (clearConnections connections) ↔
      Harmless before (started attempt 0 k) (refused (attempt k))
        (((initHeld env mails found).drop k).map Held.socket)) := by
  obtain ⟨rfl, rfl, hsockets, hnodup, hfresh⟩ := connectionsStart_fails h hk
    (fun j hj => by simpa using hconnects j hj) (by simpa using hfails)
  rw [Nat.zero_add] at hnodup hfresh ⊢
  rw [clearConnections_eq, hsockets]
  exact ⟨by decide, closesOwn_iff hnodup hfresh⟩

def secondRefused (k : Nat) : Attempt :=
  if k = 0 then ⟨4, 0⟩ else ⟨5, -1⟩

theorem closes_own_iff_second : ∃ ret connections opened,
    connectionsStart secondRefused [0, 1, 2, 3] 0
        (initHeld (talkative 0) [twoRecipients] fun _ => 5) = some (ret, connections, opened) ∧
      ret ≠ 0 ∧ (ClosesOwn [0, 1, 2, 3] opened (clearConnections connections) ↔
        Harmless [0, 1, 2, 3] (started secondRefused 0 1) (refused (secondRefused 1))
          (((initHeld (talkative 0) [twoRecipients] fun _ => 5).drop 1).map Held.socket)) := by
  have hruns : (connectionsStart secondRefused [0, 1, 2, 3] 0
      (initHeld (talkative 0) [twoRecipients] fun _ => 5)).isSome = true := by decide +kernel
  obtain ⟨⟨ret, connections, opened⟩, h⟩ := Option.isSome_iff_exists.mp hruns
  exact ⟨ret, connections, opened, h,
    closes_own_iff (by decide +kernel) (by decide) (by decide) h⟩

/-- With the number of the logger's pipe in the field, the pipe is closed and the
socket is not. -/
theorem closes_a_stranger :
    (connectionsStart (fun _ => ⟨4, -1⟩) [0, 1, 2, 3] 0
        (initHeld (talkative 0) [twoRecipients] fun k => if k = 0 then 3 else 0)).map
          (fun (ret, connections, opened) => (ret, opened, clearConnections connections)) =
        some (-1, [4], [3]) ∧
      ¬ClosesOwn [0, 1, 2, 3] [4] [3] := by
  refine ⟨by decide +kernel, fun h => ?_⟩
  have honce := h.once 4 (by simp)
  simp at honce

end SmtpMta.Client.Descriptors
