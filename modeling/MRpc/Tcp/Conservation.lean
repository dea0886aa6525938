import MRpc.Lib.History
import MRpc.Tcp.Ownership
import Mathlib.Data.List.Perm.Subperm

/-!
# Connections are not lost

The callbacks of the server come in any order. In every state that is reached, each descriptor that
is open is in one place, each worker owns the connections it links and counts them right, each
connection that has ended was freed once, with its bufferevent, and no callback was given one that
had been freed.

## Main definitions

* `TcpServer.Logged`: the invariant of the history.
* `TcpServer.Invariant`: all that a callback preserves.
* `TcpServer.Conserved`: what is proved of every reachable state.

## Main results

* `TcpServer.Invariant.handed`, `TcpServer.Invariant.notify`, `TcpServer.Invariant.bufferCb`,
  `TcpServer.Invariant.event`, `TcpServer.Invariant.readError`, `TcpServer.Invariant.quit`: what
  each callback preserves.
* `TcpServer.Invariant.step`: no callback that may come faults.
* `TcpServer.conserved_of_reachable`: connections are conserved in every reachable state.
-/

namespace MRpc

open FixedWidth History Machine

namespace TcpServer

/-! ### The history -/

/-- A callback is given nothing that was freed before. -/
def Alive (before : List TcpEvent) : TcpEvent → Prop
  | .connected conn bev | .fired bev conn =>
    .deleteConn conn ∉ before ∧ .freeBufferevent bev ∉ before
  | .readCb conn | .writeCb conn | .eventCb conn => .deleteConn conn ∉ before
  | .handed _ _ | .deleteConn _ | .freeBufferevent _ => True

/-- The event neither sets up a connection nor frees anything. -/
def Quiet : TcpEvent → Prop
  | .connected _ _ | .deleteConn _ | .freeBufferevent _ => False
  | .handed _ _ | .fired _ _ | .readCb _ | .writeCb _ | .eventCb _ => True

/-- How often a connection and its bufferevent have been freed, and that no callback came after
that. -/
structure Logged (log : List TcpEvent) (bevs : Ptr → Option BufferEvent) (fresh : Nat) : Prop where
  connected_lt : ∀ conn bev : Nat, .connected conn bev ∈ log → conn = bev + 1 ∧ conn < fresh
  connected_of_bevs : ∀ bev e, bevs bev = some e → .connected e.data bev ∈ log
  freed : ∀ conn bev, .connected conn bev ∈ log →
    log.count (.deleteConn conn) = (if (bevs bev).isSome then 0 else 1) ∧
      log.count (.freeBufferevent bev) = if (bevs bev).isSome then 0 else 1
  connected_of_deleteConn : ∀ conn, .deleteConn conn ∈ log → ∃ bev, .connected conn bev ∈ log
  connected_of_free : ∀ bev, .freeBufferevent bev ∈ log → ∃ conn, .connected conn bev ∈ log
  alive : Always Alive log

variable {log : List TcpEvent} {bevs : Ptr → Option BufferEvent} {fresh : Nat}

theorem Logged.nil (hbevs : ∀ bev, bevs bev = none) : Logged [] bevs fresh := by
  constructor <;> simp [hbevs, always_nil]

/-- The `Conn` of a bufferevent that is allocated has not been freed. -/
theorem Logged.not_freed (H : Logged log bevs fresh) {bev : Ptr} {e : BufferEvent}
    (he : bevs bev = some e) :
    .deleteConn e.data ∉ log ∧ .freeBufferevent bev ∉ log := by
  obtain ⟨hdelete, hfree⟩ := H.freed e.data bev (H.connected_of_bevs bev e he)
  rw [he, Option.isSome_some, if_pos rfl] at hdelete hfree
  exact ⟨List.count_eq_zero.mp hdelete, List.count_eq_zero.mp hfree⟩

/-- An event that frees nothing and is given nothing that was freed. -/
theorem Logged.quiet (H : Logged log bevs fresh) {e : TcpEvent} (hquiet : Quiet e)
    (halive : Alive log e) : Logged (log ++ [e]) bevs fresh := by
  have hmem : ∀ x, ¬ Quiet x → (x ∈ log ++ [e] ↔ x ∈ log) := by
    intro x hx
    have hne : x ≠ e := fun heq => hx (heq ▸ hquiet)
    simp [hne]
  have hcount : ∀ x, ¬ Quiet x → (log ++ [e]).count x = log.count x := by
    intro x hx
    have hne : e ≠ x := fun heq => hx (heq ▸ hquiet)
    rw [List.count_append, List.count_singleton, if_neg (by simpa using hne), Nat.add_zero]
  refine ⟨fun conn bev h => ?_, fun bev x hx => ?_, fun conn bev h => ?_, fun conn h => ?_,
    fun bev h => ?_, always_concat.mpr ⟨H.alive, halive⟩⟩
  · exact H.connected_lt conn bev ((hmem _ id).mp h)
  · exact (hmem _ id).mpr (H.connected_of_bevs bev x hx)
  · rw [hcount _ id, hcount _ id]
    exact H.freed conn bev ((hmem _ id).mp h)
  · obtain ⟨bev, hbev⟩ := H.connected_of_deleteConn conn ((hmem _ id).mp h)
    exact ⟨bev, (hmem _ id).mpr hbev⟩
  · obtain ⟨conn, hconn⟩ := H.connected_of_free bev ((hmem _ id).mp h)
    exact ⟨conn, (hmem _ id).mpr hconn⟩

/-- A callback on a bufferevent that is allocated. -/
theorem Logged.fired (H : Logged log bevs fresh) {bev : Ptr} {e : BufferEvent}
    (he : bevs bev = some e) (user : TcpEvent)
    (huser : user ∈ [.readCb e.data, .writeCb e.data, .eventCb e.data]) :
    Logged (log ++ [.fired bev e.data, user]) bevs fresh := by
  have hfired := H.quiet (e := .fired bev e.data) trivial (H.not_freed he)
  have hnot := (hfired.not_freed he).1
  rw [List.append_cons]
  simp only [List.mem_cons, List.not_mem_nil, or_false] at huser
  rcases huser with rfl | rfl | rfl
  · exact hfired.quiet trivial hnot
  · exact hfired.quiet trivial hnot
  · exact hfired.quiet trivial hnot

/-- A connection is set up at new addresses. -/
theorem Logged.connected (H : Logged log bevs fresh) {e : BufferEvent} (he : e.data = fresh + 1) :
    Logged (log ++ [.connected (fresh + 1) fresh])
      (fun b => if b = fresh then some e else bevs b) (fresh + 2) := by
  have hmem : ∀ x, x ∈ log ++ [TcpEvent.connected (fresh + 1) fresh] ↔
      x ∈ log ∨ x = .connected (fresh + 1) fresh := by
    simp
  have hcount : ∀ x, x ≠ .connected (fresh + 1) fresh →
      (log ++ [TcpEvent.connected (fresh + 1) fresh]).count x = log.count x := by
    intro x hx
    rw [List.count_append, List.count_singleton, if_neg (by simpa using Ne.symm hx), Nat.add_zero]
  have hdelete : .deleteConn (fresh + 1) ∉ log := by
    intro h
    obtain ⟨bev, hbev⟩ := H.connected_of_deleteConn _ h
    have := (H.connected_lt _ bev hbev).2
    omega
  have hfree : .freeBufferevent fresh ∉ log := by
    intro h
    obtain ⟨conn, hconn⟩ := H.connected_of_free _ h
    have := H.connected_lt conn _ hconn
    omega
  refine ⟨fun conn bev h => ?_, fun bev x hx => ?_, fun conn bev h => ?_, fun conn h => ?_,
    fun bev h => ?_, always_concat.mpr ⟨H.alive, hdelete, hfree⟩⟩
  · rcases (hmem _).mp h with h | h
    · have := H.connected_lt conn bev h
      omega
    · cases h
      omega
  · rw [hmem]
    split_ifs at hx with hb
    · obtain rfl := Option.some.inj hx
      exact Or.inr (by rw [he, hb])
    · exact Or.inl (H.connected_of_bevs bev x hx)
  · rw [hcount _ (by simp), hcount _ (by simp)]
    rcases (hmem _).mp h with hold | hnew
    · have hne : bev ≠ fresh := by
        rintro rfl
        have := H.connected_lt conn _ hold
        omega
      simp only [if_neg hne]
      exact H.freed conn bev hold
    · cases hnew
      simp [List.count_eq_zero.mpr hdelete, List.count_eq_zero.mpr hfree]
  · obtain ⟨bev, hbev⟩ := H.connected_of_deleteConn conn (((hmem _).mp h).resolve_right (by simp))
    exact ⟨bev, (hmem _).mpr (Or.inl hbev)⟩
  · obtain ⟨conn, hconn⟩ := H.connected_of_free bev (((hmem _).mp h).resolve_right (by simp))
    exact ⟨conn, (hmem _).mpr (Or.inl hconn)⟩

/-- A connection ends: the `Conn` and the bufferevent are freed, in one order or the other. -/
theorem Logged.closed (H : Logged log bevs fresh) {bev : Ptr} {e : BufferEvent}
    (he : bevs bev = some e) {frees : List TcpEvent}
    (hfrees : frees.Perm [.deleteConn e.data, .freeBufferevent bev]) :
    Logged (log ++ frees) (fun b => if b = bev then none else bevs b) fresh := by
  have hconnected := H.connected_of_bevs bev e he
  have hdata := (H.connected_lt _ _ hconnected).1
  obtain ⟨hdelete, hfree⟩ := H.not_freed he
  have hmem : ∀ x, x ∈ log ++ frees ↔ x ∈ log ∨ x = .deleteConn e.data ∨
      x = .freeBufferevent bev := by
    intro x
    rw [List.mem_append, hfrees.mem_iff, List.mem_pair]
  have hcount : ∀ x, (log ++ frees).count x = log.count x +
      [TcpEvent.deleteConn e.data, .freeBufferevent bev].count x := by
    intro x
    rw [List.count_append, hfrees.count_eq]
  refine ⟨fun conn b h => ?_, fun b x hx => ?_, fun conn b h => ?_, fun conn h => ?_,
    fun b h => ?_, H.alive.append fun x hx before => ?_⟩
  · exact H.connected_lt conn b (((hmem _).mp h).resolve_right (by simp))
  · split_ifs at hx
    exact (hmem _).mpr (Or.inl (H.connected_of_bevs b x hx))
  · have hmem' := ((hmem _).mp h).resolve_right (by simp)
    have hconn := (H.connected_lt conn b hmem').1
    obtain ⟨h1, h2⟩ := H.freed conn b hmem'
    rw [hcount, hcount, h1, h2]
    by_cases hb : b = bev
    · subst hb
      obtain rfl : conn = e.data := hconn.trans hdata.symm
      simp [he]
    · have hne : conn ≠ e.data := fun heq =>
        hb (Nat.succ.inj (hconn.symm.trans (heq.trans hdata)))
      simp [hb, Ne.symm hb, Ne.symm hne]
  · rcases (hmem _).mp h with h | h | h
    · obtain ⟨b, hb⟩ := H.connected_of_deleteConn conn h
      exact ⟨b, (hmem _).mpr (Or.inl hb)⟩
    · cases h
      exact ⟨bev, (hmem _).mpr (Or.inl hconnected)⟩
    · cases h
  · rcases (hmem _).mp h with h | h | h
    · obtain ⟨conn, hconn⟩ := H.connected_of_free b h
      exact ⟨conn, (hmem _).mpr (Or.inl hconn)⟩
    · cases h
    · cases h
      exact ⟨e.data, (hmem _).mpr (Or.inl hconnected)⟩
  · rcases List.mem_pair.mp (hfrees.mem_iff.mp hx) with rfl | rfl
    · trivial
    · trivial

/-! ### The callbacks preserve the invariant -/

/-- All that a callback preserves. -/
structure Invariant (count : Nat) (s : TcpServer) (conns : Nat → List Ptr) : Prop where
  threads_length : s.threads.length = count
  wired : Wired s conns
  placed : Placed s conns
  logged : Logged s.log s.bevs s.fresh
  gone : ∀ conn bev, .connected conn bev ∈ s.log → s.bevs bev = none → s.heap conn = none

variable {count : Nat} {s : TcpServer} {conns : Nat → List Ptr}

theorem Invariant.new (count : Nat) : Invariant count (TcpServer.new count) fun _ => [] := by
  have hnew : (TcpServer.new count).threads.length = count ∧ (TcpServer.new count).log = [] ∧
      ∀ bev, (TcpServer.new count).bevs bev = none := by
    induction count with
    | zero => exact ⟨rfl, rfl, fun _ => rfl⟩
    | succ count ih =>
      refine ⟨?_, ih.2.1, ih.2.2⟩
      simp [TcpServer.new, addThread, ih.1]
  refine ⟨hnew.1, Wired.new count, Placed.new count, ?_, ?_⟩
  · rw [hnew.2.1]
    exact Logged.nil hnew.2.2
  · simp [hnew.2.1]

/-- The server after a descriptor was accepted and written to the pipe of a worker. -/
def handed (s : TcpServer) (num : Nat) (t : LibeventThread) (fd : Int) : TcpServer :=
  { s with
    threads := s.threads.set num { t with pipe := t.pipe ++ [fd] }
    openFds := fd :: s.openFds
    log := s.log ++ [.handed fd num] }

theorem step_accept {fd : Int} {t : LibeventThread} (ht : s.threads[s.leastLoaded]? = some t) :
    s.step (.accept fd) = some (s.handed s.leastLoaded t fd) := by
  have hleast : { s with openFds := fd :: s.openFds }.leastLoaded = s.leastLoaded := rfl
  simp only [step, acceptCb, hleast, ht]
  rfl

/-- The descriptor is at the end of the pipe. -/
theorem Placed.handed (H : Placed s conns) {fd : Int} (hfd : 0 ≤ fd ∧ fd < 2147483648)
    (hnew : fd ∉ s.openFds) {num : Nat} {t : LibeventThread} (ht : s.threads[num]? = some t) :
    Placed (s.handed num t fd) conns := by
  have hexit : fd ≠ exitCode := by
    simp only [exitCode]
    omega
  have hnot : ∀ place, ¬ s.IsAt conns fd place := fun place h => hnew (H.mem_open fd place h)
  have hpending := t.pending_concat hexit
  have hmem : fd ∉ t.pending := fun hmem => hnot (.pipe num) ⟨t, ht, hmem⟩
  refine H.put fd (.pipe num) hfd (fun fd' place => ?_) (fun fd' => List.mem_cons)
    (List.nodup_cons.mpr ⟨hnew, H.nodup_open⟩) (H.nodup_pipe_set ht ?_)
  · -- Elsewhere nothing has changed, and the new descriptor was nowhere.
    have hsame : s.IsAt conns fd' place ↔ fd' ≠ fd ∧ s.IsAt conns fd' place := by
      rw [iff_and_self]
      rintro hat rfl
      exact hnot place hat
    cases place with
    | pipe j =>
      rw [isAt_pipe_set conns ht rfl, hpending, List.mem_append, List.mem_singleton]
      by_cases hj : j = num
      · subst hj
        have hat : s.IsAt conns fd' (.pipe j) ↔ fd' ∈ t.pending := by simp [IsAt, ht]
        rw [← hsame, hat]
        simp only [ne_eq, not_true_eq_false, false_and, or_false, true_and, and_true]
        exact or_comm
      · simpa [hj] using hsame
    | conn j p => exact hsame.trans (by simp)
  · rw [hpending]
    exact (H.nodup_pipe num t ht).append (List.nodup_singleton fd) (by simpa using hmem)

theorem Invariant.handed (H : Invariant count s conns) {fd : Int}
    (hfd : 0 ≤ fd ∧ fd < 2147483648) (hnew : fd ∉ s.openFds) {num : Nat} {t : LibeventThread}
    (ht : s.threads[num]? = some t) : Invariant count (s.handed num t fd) conns := by
  refine ⟨?_, ?_, H.placed.handed hfd hnew ht, H.logged.quiet trivial trivial,
    fun conn bev h => ?_⟩
  · simpa [TcpServer.handed] using H.threads_length
  · exact H.wired.congr (map_getElem?_set ht rfl) (fun _ => rfl) (fun _ => rfl) rfl rfl
  · exact H.gone conn bev (by simpa [TcpServer.handed] using h)

theorem Invariant.quit (H : Invariant count s conns) : Invariant count s.quit conns := by
  refine ⟨?_, ?_, ?_, H.logged, H.gone⟩
  · simpa [TcpServer.quit] using H.threads_length
  · refine H.wired.congr (fun j => ?_) (fun _ => rfl) (fun _ => rfl) rfl rfl
    simp [TcpServer.quit, Function.comp_def]
  · refine H.placed.congr (fun j => ?_) (fun _ => rfl) rfl
    simp [TcpServer.quit, Function.comp_def, LibeventThread.pending_exit]

/-- A worker takes the next `int` from its pipe: a descriptor, or `EXIT_CODE`. -/
theorem Invariant.notify (H : Invariant count s conns) {i : Nat} {t : LibeventThread}
    (ht : s.threads[i]? = some t) {fd : Int} {pipe : List Int} (hpipe : t.pipe = fd :: pipe) :
    ∃ s' conns', s.notifyHandler i = some s' ∧ Invariant count s' conns' := by
  by_cases hfd : fd = exitCode
  · subst hfd
    refine ⟨{ s with threads := s.threads.set i { t with pipe := pipe, looping := false } }, conns,
      by simp [notifyHandler, ht, hpipe], ?_, ?_, ?_, H.logged, H.gone⟩
    · simpa using H.threads_length
    · exact H.wired.congr (map_getElem?_set ht rfl) (fun _ => rfl) (fun _ => rfl) rfl rfl
    · refine H.placed.congr (map_getElem?_set ht ?_) (fun _ => rfl) rfl
      simp [LibeventThread.pending, hpipe]
  · obtain ⟨h₁, h₂, hinsert, hupdate, hholds, hnew, hkey, hframe⟩ :=
      H.wired.exists_insertConn ht (H.wired.heap_none (s.fresh + 1) (by omega)) fd s.fresh
    refine ⟨s.connected i t pipe fd h₂, _, ?_, ?_, H.wired.notify ht hholds hnew hkey hframe,
      H.placed.notify H.wired ht hpipe hfd hnew hkey, H.logged.connected rfl,
      fun conn bev hlog hbev => ?_⟩
    · simp [notifyHandler, ht, hpipe, hfd, hinsert, hupdate, TcpServer.connected]
    · simpa [TcpServer.connected] using H.threads_length
    · simp only [TcpServer.connected] at hbev hlog ⊢
      split_ifs at hbev with hb
      have hold : .connected conn bev ∈ s.log := by simpa [hb] using hlog
      have hne : conn ≠ s.fresh + 1 := by
        rintro rfl
        have := (H.logged.connected_lt _ bev hold).2
        omega
      have hgone := hkey conn hne
      rwa [H.gone conn bev hold hbev, Option.map_none, Option.map_eq_none_iff] at hgone

/-- What a bufferevent that is allocated leads to. -/
theorem Wired.exists_conn (H : Wired s conns) {bev : Ptr} {e : BufferEvent}
    (he : s.bevs bev = some e) :
    ∃ c t, s.heap e.data = some c ∧ c.fd = e.fd ∧ c.thread = some e.base ∧ c.bev = some bev ∧
      s.threads[e.base]? = some t := by
  obtain ⟨hmem, hkey⟩ := H.bevs_owned bev e he
  obtain ⟨c, hc, hfields⟩ := Option.map_eq_some_iff.mp hkey
  obtain ⟨t, ht⟩ : ∃ t, s.threads[e.base]? = some t := by
    rw [← Option.ne_none_iff_exists']
    intro hnone
    rw [H.conns_nil e.base hnone] at hmem
    cases hmem
  simp only [Conn.key, Prod.mk.injEq] at hfields
  exact ⟨c, t, hc, hfields.1, hfields.2.1, hfields.2.2, ht⟩

/-- A callback for reading or writing sets the buffers of the `Conn` and calls the user. -/
theorem Invariant.bufferCb (H : Invariant count s conns) {bev : Ptr} {e : BufferEvent}
    (he : s.bevs bev = some e) (user : Ptr → TcpEvent)
    (huser : user e.data ∈ [.readCb e.data, .writeCb e.data, .eventCb e.data]) :
    ∃ heap, s.bufferCb bev user =
        some { s with heap := heap, log := s.log ++ [.fired bev e.data, user e.data] } ∧
      Invariant count { s with heap := heap, log := s.log ++ [.fired bev e.data, user e.data] }
        conns := by
  obtain ⟨c, t, hc, -, hthread, -, -⟩ := H.wired.exists_conn he
  let c' : Conn := { c with readBuf := some bev, writeBuf := some bev }
  have hsame : ∀ p, (s.heap.set e.data (some c') p).map Conn.ends = (s.heap p).map Conn.ends ∧
      (s.heap.set e.data (some c') p).map Conn.key = (s.heap p).map Conn.key := by
    intro p
    by_cases hp : p = e.data
    · rw [hp, ConnHeap.set_self, hc]
      exact ⟨rfl, rfl⟩
    · rw [ConnHeap.set_of_ne hp]
      exact ⟨rfl, rfl⟩
  refine ⟨s.heap.set e.data (some c'), ?_, H.threads_length, ?_, ?_, H.logged.fired he _ huser,
    fun conn b hlog hb => ?_⟩
  · simp only [TcpServer.bufferCb, he, ConnHeap.update_of_some hc, Option.bind_eq_bind,
      Option.bind_some, ConnHeap.set_self, hthread, Option.pure_def, c']
  · exact H.wired.congr (fun _ => rfl) (fun p => (hsame p).1) (fun p => (hsame p).2) rfl rfl
  · exact H.placed.congr (fun _ => rfl) (fun p => (hsame p).2) rfl
  · have hold : .connected conn b ∈ s.log := by
      simp only [List.mem_append, List.mem_pair, reduceCtorEq, false_or] at hlog
      refine hlog.resolve_right fun heq => ?_
      rw [← heq] at huser
      simp at huser
    have hgone := (hsame conn).2
    rwa [H.gone conn b hold hb, Option.map_none, Option.map_eq_none_iff] at hgone

/-- The queue of the worker lets the `Conn` go. -/
theorem Invariant.closed (H : Invariant count s conns) {bev : Ptr} {e : BufferEvent}
    (he : s.bevs bev = some e) {t : LibeventThread} (ht : s.threads[e.base]? = some t) :
    ∃ h, t.queue.deleteConn s.heap e.data =
        some (h, { t.queue with total := uint64 (t.queue.total - 1) }) ∧ h e.data = none ∧
      ∀ before {frees}, Logged (s.log ++ before) s.bevs s.fresh → (∀ x ∈ before, Quiet x) →
        frees.Perm [.deleteConn e.data, .freeBufferevent bev] →
        Invariant count (s.closed e.base t bev e.fd h (s.log ++ before ++ frees))
          (Function.update conns e.base ((conns e.base).erase e.data)) := by
  obtain ⟨h, hdelete, hholds, hnone, hcontent, hframe⟩ :=
    (H.wired.holds e.base t ht).deleteConn (H.wired.bevs_owned bev e he).1
  have hkey : ∀ p, p ≠ e.data → (h p).map Conn.key = (s.heap p).map Conn.key :=
    fun p hp => key_eq_of_content (hcontent p hp)
  refine ⟨h, hdelete, hnone, fun before frees hlog hquiet hfrees =>
    ⟨?_, H.wired.teardown ht he hholds hnone hkey hframe, H.placed.teardown H.wired ht he hkey,
      hlog.closed he hfrees, fun conn b hmem hb => ?_⟩⟩
  · simpa [TcpServer.closed] using H.threads_length
  · have hold : .connected conn b ∈ s.log := by
      simp only [TcpServer.closed, List.mem_append, hfrees.mem_iff, List.mem_pair, reduceCtorEq,
        or_false] at hmem
      exact hmem.resolve_right fun hmem => hquiet _ hmem
    by_cases hconn : conn = e.data
    · rw [hconn]
      exact hnone
    · have hne : b ≠ bev := by
        rintro rfl
        have hdata := H.logged.connected_lt _ _ (H.logged.connected_of_bevs b e he)
        exact hconn ((H.logged.connected_lt conn b hold).1.trans hdata.1.symm)
      simp only [TcpServer.closed, if_neg hne] at hb
      have hgone := hkey conn hconn
      rwa [H.gone conn b hold hb, Option.map_none, Option.map_eq_none_iff] at hgone

/-- `bufferEventCb` ends the connection. -/
theorem Invariant.event (H : Invariant count s conns) {bev : Ptr} {e : BufferEvent}
    (he : s.bevs bev = some e) :
    ∃ s' conns', s.bufferEventCb bev = some s' ∧ Invariant count s' conns' ∧
      s'.heap e.data = none ∧ s'.bevs bev = none := by
  obtain ⟨c, t, hc, -, hthread, -, ht⟩ := H.wired.exists_conn he
  obtain ⟨h, hdelete, hnone, hclosed⟩ := H.closed he ht
  refine ⟨_, _, ?_, hclosed _ (H.logged.fired he (.eventCb e.data) (by simp)) ?_ (List.Perm.refl _),
    hnone, if_pos rfl⟩
  · simp [TcpServer.bufferEventCb, TcpServer.deleteConn, TcpServer.buffereventFree, he, hc, hthread,
      ht, hdelete, TcpServer.closed]
  · simp [Quiet]

/-- `defaultErrorCallback` ends the connection. -/
theorem Invariant.defaultErrorCallback (H : Invariant count s conns) {bev : Ptr} {e : BufferEvent}
    (he : s.bevs bev = some e) :
    ∃ t h, s.threads[e.base]? = some t ∧ h e.data = none ∧
      s.defaultErrorCallback e.data = some (s.closed e.base t bev e.fd h
        (s.log ++ [.freeBufferevent bev, .deleteConn e.data])) ∧
      Invariant count (s.closed e.base t bev e.fd h
        (s.log ++ [.freeBufferevent bev, .deleteConn e.data]))
          (Function.update conns e.base ((conns e.base).erase e.data)) := by
  obtain ⟨c, t, hc, -, hthread, hbev, ht⟩ := H.wired.exists_conn he
  obtain ⟨h, hdelete, hnone, hclosed⟩ := H.closed he ht
  have H' := hclosed [] (by simpa using H.logged) (by simp) (List.Perm.swap _ _ _)
  rw [List.append_nil] at H'
  refine ⟨t, h, ht, hnone, ?_, H'⟩
  simp [TcpServer.defaultErrorCallback, TcpServer.deleteConn, TcpServer.buffereventFree, he, hc,
    hthread, hbev, ht, hdelete, TcpServer.closed]

/-- A read callback in which the codec reports an error ends the connection. -/
theorem Invariant.readError (H : Invariant count s conns) {bev : Ptr} {e : BufferEvent}
    (he : s.bevs bev = some e) :
    ∃ s' conns', s.readError bev = some s' ∧ Invariant count s' conns' ∧
      s'.heap e.data = none ∧ s'.bevs bev = none := by
  obtain ⟨heap, hread, H'⟩ := H.bufferCb he .readCb (by simp)
  obtain ⟨t, h, -, hnone, herror, H''⟩ := H'.defaultErrorCallback he
  refine ⟨_, _, ?_, H'', hnone, if_pos rfl⟩
  simp only [TcpServer.readError, TcpServer.bufferReadCb, he, hread, herror, Option.bind_eq_bind,
    Option.bind_some]

theorem exists_bev_of_live {bev : Ptr} (h : s.live bev = true) : ∃ e, s.bevs bev = some e := by
  obtain ⟨e, he, -⟩ := (Option.any_eq_true _ _).mp h
  exact ⟨e, he⟩

/-- The worker that `acceptCb` chooses. -/
theorem Invariant.exists_leastLoaded (H : Invariant count s conns) (hcount : 0 < count) :
    s.leastLoaded < count ∧ ∃ t, s.threads[s.leastLoaded]? = some t := by
  have hlt : s.leastLoaded < s.threads.length :=
    leastLoaded_lt (by rw [H.threads_length]; exact hcount)
  exact ⟨H.threads_length ▸ hlt, _, List.getElem?_eq_getElem hlt⟩

/-- **A callback that may come does not fault, and preserves the invariant.** Without a worker there
is nobody to hand a descriptor to. -/
theorem Invariant.step (H : Invariant count s conns) {a : TcpAction} (ha : s.enabled a = true)
    (hworker : ∀ fd, a = .accept fd → 0 < count) :
    ∃ s' conns', s.step a = some s' ∧ Invariant count s' conns' := by
  cases a with
  | accept fd =>
    simp only [enabled, Bool.and_eq_true, decide_eq_true_eq, Bool.not_eq_true',
      List.contains_eq_mem, decide_eq_false_iff_not] at ha
    obtain ⟨-, t, ht⟩ := H.exists_leastLoaded (hworker fd rfl)
    exact ⟨_, conns, step_accept ht, H.handed ha.1 ha.2 ht⟩
  | notify i =>
    simp only [enabled, Bool.and_eq_true] at ha
    obtain ⟨t, ht, hpipe⟩ := (Option.any_eq_true _ _).mp ha.2
    cases hp : t.pipe with
    | nil => simp [hp] at hpipe
    | cons fd pipe => exact H.notify ht hp
  | read bev =>
    obtain ⟨e, he⟩ := exists_bev_of_live ha
    obtain ⟨heap, hread, H'⟩ := H.bufferCb he .readCb (by simp)
    exact ⟨_, conns, hread, H'⟩
  | write bev =>
    obtain ⟨e, he⟩ := exists_bev_of_live ha
    obtain ⟨heap, hwrite, H'⟩ := H.bufferCb he .writeCb (by simp)
    exact ⟨_, conns, hwrite, H'⟩
  | event bev =>
    obtain ⟨e, he⟩ := exists_bev_of_live ha
    obtain ⟨s', conns', hevent, H', -⟩ := H.event he
    exact ⟨s', conns', hevent, H'⟩
  | readError bev =>
    obtain ⟨e, he⟩ := exists_bev_of_live ha
    obtain ⟨s', conns', herror, H', -⟩ := H.readError he
    exact ⟨s', conns', herror, H'⟩
  | quit => exact ⟨_, conns, rfl, H.quit⟩

theorem Invariant.of_reachable (h : Reachable TcpServer.next (TcpServer.new count) s) :
    ∃ conns, Invariant count s conns := by
  refine Reachable.invariant (P := fun s => ∃ conns, Invariant count s conns)
    (fun s a t ih hst => ?_) ⟨_, Invariant.new count⟩ h
  obtain ⟨conns, H⟩ := ih
  simp only [next] at hst
  split_ifs at hst with ha
  have hworker : ∀ fd, a = .accept fd → 0 < count := by
    rintro fd rfl
    by_contra hcount
    have hnil : s.threads = [] := List.eq_nil_of_length_eq_zero (by rw [H.threads_length]; omega)
    simp [TcpServer.step, acceptCb, hnil] at hst
  obtain ⟨s', conns', hs', H'⟩ := H.step ha hworker
  obtain rfl := Option.some.inj (hs'.symm.trans hst)
  exact ⟨conns', H'⟩

/-! ### Conservation -/

theorem Placed.openFds_length_le (H : Placed s conns) : s.openFds.length ≤ 2147483648 := by
  have hsub : s.openFds ⊆ (List.range 2147483648).map Int.ofNat := by
    intro fd hfd
    obtain ⟨hnonneg, hlt⟩ := H.fd_bounds fd hfd
    exact List.mem_map.mpr ⟨fd.toNat, List.mem_range.mpr (by omega), Int.toNat_of_nonneg hnonneg⟩
  have hle := (List.subperm_of_subset H.nodup_open hsub).length_le
  rwa [List.length_map, List.length_range] at hle

/-- A worker has no more connections than descriptors are open. -/
theorem Invariant.conns_length_le (H : Invariant count s conns) (i : Nat) :
    (conns i).length ≤ s.openFds.length := by
  let fdOf : Ptr → Int := fun p => ((s.heap p).map Conn.fd).getD 0
  have hat : ∀ p ∈ conns i, s.IsAt conns (fdOf p) (.conn i p) := by
    intro p hp
    obtain ⟨fd, bev, hkey, -⟩ := H.wired.owned i p hp
    refine ⟨hp, ?_⟩
    simp only [fdOf]
    rw [map_fd_eq, hkey]
    rfl
  have hnodup : ((conns i).map fdOf).Nodup := by
    refine List.Nodup.map_on (fun p hp q hq heq => ?_) (H.wired.nodup_conns i)
    have hq' := heq ▸ hat q hq
    exact (Place.conn.inj (H.placed.place_unique _ _ _ (hat p hp) hq')).2
  have hsub : (conns i).map fdOf ⊆ s.openFds := by
    intro fd hfd
    obtain ⟨p, hp, rfl⟩ := List.mem_map.mp hfd
    exact H.placed.mem_open _ _ (hat p hp)
  have hle := (List.subperm_of_subset hnodup hsub).length_le
  rwa [List.length_map] at hle

/-- The counter of a worker does not wrap. -/
theorem Invariant.total_eq (H : Invariant count s conns) {i : Nat} {t : LibeventThread}
    (ht : s.threads[i]? = some t) : t.queue.total = (conns i).length := by
  have hle := (H.conns_length_le i).trans H.placed.openFds_length_le
  rw [(H.wired.holds i t ht).total_eq, uint64]
  omega

/-- What is true of the server in every state it reaches, where `conns` are the connections that the
workers link. -/
structure Conserved (count : Nat) (s : TcpServer) (conns : Nat → List Ptr) : Prop where
  threads_length : s.threads.length = count
  /-- A worker counts the connections it links. -/
  holds : ∀ (i : Nat) (t : LibeventThread), s.threads[i]? = some t →
    t.queue.Holds s.heap (conns i) ∧ t.queue.total = (conns i).length
  conns_nil : ∀ i, count ≤ i → conns i = []
  /-- A `Conn` belongs to the worker that links it, and has a bufferevent of its own. -/
  owned : ∀ i p, p ∈ conns i → ∃ fd bev, (s.heap p).map Conn.key = some (fd, some i, some bev) ∧
    s.bevs bev = some ⟨fd, p, i⟩ ∧ .connected p bev ∈ s.log
  /-- A descriptor that is open is in one pipe or in one `Conn`. -/
  one_place : ∀ fd ∈ s.openFds, ∃! place, s.IsAt conns fd place
  /-- It is there once, and nothing else is there. -/
  once : ∀ (i : Nat) (t : LibeventThread), s.threads[i]? = some t →
    t.pending.Nodup ∧ ∀ fd ∈ t.pending, fd ∈ s.openFds
  conn_open : ∀ i p, p ∈ conns i → ∃ fd ∈ s.openFds, (s.heap p).map Conn.fd = some fd
  /-- A connection that was set up is linked, or was freed once, with its bufferevent. -/
  freed_once : ∀ conn bev, .connected conn bev ∈ s.log →
    (∃ i, conn ∈ conns i) ∧
        s.log.count (.deleteConn conn) = 0 ∧ s.log.count (.freeBufferevent bev) = 0 ∨
      (∀ i, conn ∉ conns i) ∧ s.heap conn = none ∧ s.bevs bev = none ∧
        s.log.count (.deleteConn conn) = 1 ∧ s.log.count (.freeBufferevent bev) = 1
  /-- Both ways to end a connection do end it. -/
  ends : ∀ bev a, a = .event bev ∨ a = .readError bev → s.enabled a = true →
    ∃ e s', s.bevs bev = some e ∧ s.step a = some s' ∧ s'.heap e.data = none ∧ s'.bevs bev = none
  /-- No callback was given what had been freed. -/
  alive : Always Alive s.log
  /-- A connection that is accepted goes to a worker that has the fewest. -/
  accept : ∀ fd, s.enabled (.accept fd) = true → ∃ num t, num < count ∧ s.threads[num]? = some t ∧
    s.step (.accept fd) = some (s.handed num t fd) ∧ ∀ i < count, s.getCount num ≤ s.getCount i
  /-- Whatever callback comes next does not fault. -/
  no_fault : ∀ a, s.enabled a = true → ∃ s', s.step a = some s'

theorem Invariant.freed_once (H : Invariant count s conns) {conn bev : Nat}
    (h : .connected conn bev ∈ s.log) :
    (∃ i, conn ∈ conns i) ∧
        s.log.count (.deleteConn conn) = 0 ∧ s.log.count (.freeBufferevent bev) = 0 ∨
      (∀ i, conn ∉ conns i) ∧ s.heap conn = none ∧ s.bevs bev = none ∧
        s.log.count (.deleteConn conn) = 1 ∧ s.log.count (.freeBufferevent bev) = 1 := by
  have hconn := (H.logged.connected_lt conn bev h).1
  have hfreed := H.logged.freed conn bev h
  cases hbev : s.bevs bev with
  | some e =>
    rw [hbev] at hfreed
    have hdata := (H.logged.connected_lt _ _ (H.logged.connected_of_bevs bev e hbev)).1
    have hmem := (H.wired.bevs_owned bev e hbev).1
    rw [hdata, ← hconn] at hmem
    exact Or.inl ⟨⟨e.base, hmem⟩, hfreed⟩
  | none =>
    rw [hbev] at hfreed
    refine Or.inr ⟨fun i hi => ?_, H.gone conn bev h hbev, rfl, hfreed⟩
    obtain ⟨fd, b, -, hb⟩ := H.wired.owned i conn hi
    have hb' := (H.logged.connected_lt _ _ (H.logged.connected_of_bevs b _ hb)).1
    obtain rfl : b = bev := Nat.succ.inj (hb'.symm.trans hconn)
    rw [hb] at hbev
    cases hbev

theorem Invariant.ends (H : Invariant count s conns) {bev : Ptr} {a : TcpAction}
    (ha : a = .event bev ∨ a = .readError bev) (henabled : s.enabled a = true) :
    ∃ e s', s.bevs bev = some e ∧ s.step a = some s' ∧ s'.heap e.data = none ∧
      s'.bevs bev = none := by
  rcases ha with rfl | rfl
  · obtain ⟨e, he⟩ := exists_bev_of_live henabled
    obtain ⟨s', -, hstep, -, hgone⟩ := H.event he
    exact ⟨e, s', he, hstep, hgone⟩
  · obtain ⟨e, he⟩ := exists_bev_of_live henabled
    obtain ⟨s', -, hstep, -, hgone⟩ := H.readError he
    exact ⟨e, s', he, hstep, hgone⟩

theorem Invariant.conserved (H : Invariant count s conns) (hcount : 0 < count) :
    Conserved count s conns where
  threads_length := H.threads_length
  holds i t ht := ⟨H.wired.holds i t ht, H.total_eq ht⟩
  conns_nil i hi := H.wired.conns_nil i (List.getElem?_eq_none (by rw [H.threads_length]; exact hi))
  owned i p hp := by
    obtain ⟨fd, bev, hkey, hbev⟩ := H.wired.owned i p hp
    exact ⟨fd, bev, hkey, hbev, H.logged.connected_of_bevs bev _ hbev⟩
  one_place fd hfd := by
    obtain ⟨place, hplace⟩ := H.placed.exists_place fd hfd
    exact ⟨place, hplace, fun q hq => H.placed.place_unique fd q place hq hplace⟩
  once i t ht :=
    ⟨H.placed.nodup_pipe i t ht, fun fd hfd => H.placed.mem_open fd (.pipe i) ⟨t, ht, hfd⟩⟩
  conn_open i p hp := by
    obtain ⟨fd, bev, hkey, -⟩ := H.wired.owned i p hp
    have hfd : (s.heap p).map Conn.fd = some fd := by
      rw [map_fd_eq, hkey]
      rfl
    exact ⟨fd, H.placed.mem_open fd (.conn i p) ⟨hp, hfd⟩, hfd⟩
  freed_once conn bev h := H.freed_once h
  ends bev a ha henabled := H.ends ha henabled
  alive := H.logged.alive
  accept fd _ := by
    obtain ⟨hlt, t, ht⟩ := H.exists_leastLoaded hcount
    refine ⟨s.leastLoaded, t, hlt, ht, step_accept ht, fun i hi => ?_⟩
    exact getCount_leastLoaded_le (by rw [H.threads_length]; exact hi)
  no_fault a ha := by
    obtain ⟨s', -, hs', -⟩ := H.step ha fun _ _ => hcount
    exact ⟨s', hs'⟩

/-- **Connections are conserved.** In every state that the server reaches, each open descriptor is
in one place, each worker owns and counts the connections it links, each connection that has ended
was freed once, no callback was given one that had been freed, and none can fault now. -/
theorem conserved_of_reachable (hcount : 0 < count)
    (h : Reachable TcpServer.next (TcpServer.new count) s) : ∃ conns, Conserved count s conns := by
  obtain ⟨conns, H⟩ := Invariant.of_reachable h
  exact ⟨conns, H.conserved hcount⟩

/-- Two workers and four connections: one ends in `bufferEventCb`, one in an error of the codec,
and the descriptor `5` is used twice, by one worker and then by the other. -/
theorem conserved_twoWorkers :
    ∃ s conns, run TcpServer.next (TcpServer.new 2)
        [.accept 5, .accept 6, .notify 0, .notify 0, .event 4, .accept 5, .accept 7, .read 6,
          .readError 6, .notify 1, .notify 1] = some s ∧
      Conserved 2 s conns := by
  obtain ⟨s, hs⟩ := Option.isSome_iff_exists.mp (by decide +kernel :
    (run TcpServer.next (TcpServer.new 2) [.accept 5, .accept 6, .notify 0, .notify 0, .event 4,
      .accept 5, .accept 7, .read 6, .readError 6, .notify 1, .notify 1]).isSome = true)
  obtain ⟨conns, hconns⟩ := conserved_of_reachable (by decide) ⟨_, hs⟩
  exact ⟨s, conns, hs, hconns⟩

end TcpServer

end MRpc
