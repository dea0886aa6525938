import MRpc.Lib.DoublyLinked
import MRpc.Lib.FixedWidth
import MRpc.Lib.WhileLoop

/-!
# The connections of a worker

`Conn` and `ConnQueue` of `src/tcpServer.h`. The connections of a worker are nodes of a doubly
linked list between two sentinels, and the queue counts them. The list lives on the heap, which
holds the `Conn`s that are allocated; reading or writing through `NULL` or a `Conn` that was deleted
is a fault (`none`).

## Main definitions

* `Conn`, `ConnHeap`: connections and where they live.
* `ConnQueue`, with its constructor and destructor, `ConnQueue.insertConn` and
  `ConnQueue.deleteConn`.
* `ConnQueue.Holds`: the queue links these connections, in this order.

## Main results

* `ConnQueue.holds_new`, `ConnQueue.Holds.insertConn`, `ConnQueue.Holds.deleteConn`: the operations
  do not fault and do to the list what they are for.
* `ConnQueue.Holds.destructor`: the destructor deletes every node of the list once.
-/

namespace MRpc

open FixedWidth DoublyLinked WhileLoop

/-! ### The heap -/

/-- `Conn`. A thread is known by its index, a buffer by the bufferevent it belongs to. -/
structure Conn where
  fd : Int
  thread : Option Nat
  bev : Option Ptr
  readBuf : Option Ptr
  writeBuf : Option Ptr
  pre : Option Ptr
  next : Option Ptr
  deriving DecidableEq, Repr

/-- `Conn(int fd)`. -/
def Conn.new (fd : Int) : Conn := ⟨fd, none, none, none, none, none, none⟩

/-- What a `Conn` holds besides its links. -/
def Conn.content (c : Conn) : Conn := { c with pre := none, next := none }

/-- The links of a `Conn`. -/
def Conn.ends (c : Conn) : Option Ptr × Option Ptr := (c.pre, c.next)

/-- The `Conn`s that are allocated. -/
abbrev ConnHeap := Ptr → Option Conn

namespace ConnHeap

/-- The heap with `c` at the address `p`. -/
def set (h : ConnHeap) (p : Ptr) (c : Option Conn) : ConnHeap := fun q => if q = p then c else h q

/-- A write through the pointer `p`. -/
def update (h : ConnHeap) (p : Option Ptr) (f : Conn → Conn) : Option ConnHeap := do
  let p ← p
  let c ← h p
  return h.set p (some (f c))

/-- The heap without the `Conn`s at the addresses in `ps`. -/
def free (h : ConnHeap) (ps : List Ptr) : ConnHeap := fun p => if p ∈ ps then none else h p

/-- The links between the `Conn`s. -/
def links (h : ConnHeap) : Links Ptr where
  next p := (h p).bind fun c => c.next
  pre p := (h p).bind fun c => c.pre

variable {h : ConnHeap} {p : Ptr} {c : Conn}

theorem update_of_some (hp : h p = some c) (f : Conn → Conn) :
    h.update (some p) f = some (h.set p (some (f c))) := by
  simp [update, hp]

@[simp] theorem set_self (v : Option Conn) : h.set p v p = v := if_pos rfl

@[simp] theorem set_set (v w : Option Conn) : (h.set p v).set p w = h.set p w := by
  funext q
  simp only [set]
  split <;> rfl

/-- A change that keeps what `f` reads of a `Conn` keeps it allocated. -/
theorem exists_of_map_eq {β : Type*} {h' : ConnHeap} {f : Conn → β}
    (heq : (h' p).map f = (h p).map f) (hp : ∃ c, h p = some c) : ∃ c, h' p = some c := by
  obtain ⟨c, hc⟩ := hp
  rw [hc, Option.map_some] at heq
  exact (Option.map_eq_some_iff.mp heq).imp fun _ h => h.1

theorem set_of_ne {q : Ptr} (hq : q ≠ p) (v : Option Conn) : h.set p v q = h q := if_neg hq

@[simp] theorem free_nil (h : ConnHeap) : h.free [] = h := by
  funext p
  simp [free]

theorem free_set_none (h : ConnHeap) (p : Ptr) (ps : List Ptr) :
    (h.set p none).free ps = h.free (p :: ps) := by
  funext q
  simp only [free, set, List.mem_cons]
  by_cases hqp : q = p <;> by_cases hq : q ∈ ps <;> simp [hqp, hq]

end ConnHeap

/-! ### The queue -/

/-- `ConnQueue`; `total` is an `unsigned long`. -/
structure ConnQueue where
  total : Nat
  head : Ptr
  tail : Ptr
  deriving DecidableEq, Repr

namespace ConnQueue

/-- The constructor, with the addresses of the two sentinels. -/
def new (h : ConnHeap) (head tail : Ptr) : ConnHeap × ConnQueue :=
  ((h.set head (some { Conn.new 0 with next := some tail })).set tail
    (some { Conn.new 0 with pre := some head }), ⟨0, head, tail⟩)

/-- `insertConn`; `c` is the address of the new `Conn`. -/
def insertConn (q : ConnQueue) (h : ConnHeap) (fd : Int) (t : Nat) (c : Ptr) :
    Option (ConnHeap × ConnQueue) := do
  let h := h.set c (some { Conn.new fd with thread := some t })
  let next := (← h q.head).next
  let h ← h.update (some c) fun conn => { conn with pre := some q.head }
  let headNext := (← h q.head).next
  let h ← h.update (some c) fun conn => { conn with next := headNext }
  let h ← h.update (some q.head) fun conn => { conn with next := some c }
  let h ← h.update next fun conn => { conn with pre := some c }
  return (h, { q with total := uint64 (q.total + 1) })

/-- `deleteConn`. -/
def deleteConn (q : ConnQueue) (h : ConnHeap) (conn : Ptr) : Option (ConnHeap × ConnQueue) := do
  let c ← h conn
  let h ← h.update c.pre fun pre => { pre with next := c.next }
  let c ← h conn
  let h ← h.update c.next fun next => { next with pre := c.pre }
  let _ ← h conn
  return (h.set conn none, { q with total := uint64 (q.total - 1) })

/-- The locals of the destructor (`tnext` is set before it is read), and the `Conn`s that it has
deleted so far. -/
structure Deletion where
  heap : ConnHeap
  tcur : Option Ptr
  deleted : List Ptr

/-- One round of the loop in `~ConnQueue`, with its condition; the state `none` is a fault. -/
def destructorRound : Option Deletion → Round (Option Deletion)
  | none => .done none
  | some s => match s.tcur with
    | none => .done (some s)
    | some tcur => match s.heap tcur with
      | none => .done none
      | some c => .again (some ⟨s.heap.set tcur none, c.next, s.deleted ++ [tcur]⟩)

/-- `~ConnQueue`, with at most `n` rounds of its loop. -/
def destructor (q : ConnQueue) (h : ConnHeap) (n : Nat) : Option (Option Deletion) :=
  WhileLoop.run destructorRound n (some ⟨h, some q.head, []⟩)

/-- The nodes of the list, sentinels included. -/
def nodes (q : ConnQueue) (conns : List Ptr) : List Ptr := q.head :: (conns ++ [q.tail])

/-- The list between the sentinels is `conns`. -/
structure Holds (q : ConnQueue) (h : ConnHeap) (conns : List Ptr) : Prop where
  linked : Linked h.links (q.nodes conns)
  allocated : ∀ p ∈ q.nodes conns, ∃ c, h p = some c
  head_pre : h.links.pre q.head = none
  tail_next : h.links.next q.tail = none
  total_eq : q.total = uint64 conns.length

variable {q : ConnQueue} {h : ConnHeap} {conns : List Ptr}

theorem nodes_cons (q : ConnQueue) (c : Ptr) (conns : List Ptr) (total : Nat) :
    nodes { q with total := total } (c :: conns) = q.head :: c :: (conns ++ [q.tail]) := rfl

section Insert

variable {c n : Ptr} {a b : Conn} (fd : Int) (t : Nat)

/-- The heap after `insertConn`, where `n` is the node behind the first sentinel. -/
def insertedHeap (q : ConnQueue) (h : ConnHeap) (fd : Int) (t : Nat) (c n : Ptr) (a b : Conn) :
    ConnHeap :=
  ((h.set c (some ⟨fd, some t, none, none, none, some q.head, some n⟩)).set
    q.head (some { a with next := some c })).set n (some { b with pre := some c })

theorem insertConn_eq (ha : h q.head = some a) (hb : h n = some b) (hnext : a.next = some n)
    (hac : q.head ≠ c) (hbc : n ≠ c) (hab : n ≠ q.head) :
    q.insertConn h fd t c =
      some (q.insertedHeap h fd t c n a b, { q with total := uint64 (q.total + 1) }) := by
  simp only [ConnQueue.insertConn, ConnHeap.update, ConnHeap.set_self, ConnHeap.set_of_ne hac,
    ConnHeap.set_of_ne hbc, ConnHeap.set_of_ne hab, ConnHeap.set_set, ha, hb, hnext, Conn.new,
    Option.bind_eq_bind, Option.bind_some, Option.pure_def]
  rfl

theorem links_insertedHeap (ha : h q.head = some a) (hb : h n = some b)
    (hac : q.head ≠ c) (hbc : n ≠ c) (hab : n ≠ q.head) (x : Ptr) :
    (q.insertedHeap h fd t c n a b).links.next x = (h.links.insert q.head c n).next x ∧
      (q.insertedHeap h fd t c n a b).links.pre x = (h.links.insert q.head c n).pre x := by
  simp only [ConnHeap.links, insertedHeap, Links.insert, ConnHeap.set]
  by_cases hn : x = n
  · subst hn
    simp [hab, hbc, hb]
  · by_cases hh : x = q.head
    · subst hh
      simp [Ne.symm hab, hac, ha]
    · by_cases hx : x = c
      · subst hx
        simp [Ne.symm hac, Ne.symm hbc]
      · simp [hn, hh, hx]

theorem insertedHeap_of_ne {p : Ptr} (hp : p ≠ c) (hph : p ≠ q.head) (hpn : p ≠ n) :
    q.insertedHeap h fd t c n a b p = h p := by
  rw [insertedHeap, ConnHeap.set_of_ne hpn, ConnHeap.set_of_ne hph, ConnHeap.set_of_ne hp]

theorem content_insertedHeap (ha : h q.head = some a) (hb : h n = some b) (hab : n ≠ q.head)
    {p : Ptr} (hp : p ≠ c) :
    (q.insertedHeap h fd t c n a b p).map Conn.content = (h p).map Conn.content := by
  by_cases hpn : p = n
  · simp [hpn, insertedHeap, hb, Conn.content]
  · by_cases hph : p = q.head
    · simp [hph, insertedHeap, ConnHeap.set_of_ne (Ne.symm hab), ha, Conn.content]
    · rw [insertedHeap_of_ne fd t hp hph hpn]

end Insert

/-- The first node behind the sentinel. -/
theorem Holds.exists_first (H : q.Holds h conns) :
    ∃ n rest a b, q.nodes conns = q.head :: n :: rest ∧ h q.head = some a ∧ h n = some b ∧
      a.next = some n ∧ n ≠ q.head := by
  obtain ⟨n, rest, hrest⟩ : ∃ n rest, conns ++ [q.tail] = n :: rest :=
    List.exists_cons_of_ne_nil (by simp)
  have hnodes : q.nodes conns = q.head :: n :: rest := by rw [nodes, hrest]
  obtain ⟨a, ha⟩ := H.allocated q.head (by simp [hnodes])
  obtain ⟨b, hb⟩ := H.allocated n (by simp [hnodes])
  have hlinked := H.linked
  rw [hnodes] at hlinked
  refine ⟨n, rest, a, b, hnodes, ha, hb, ?_, ?_⟩
  · have hnext := (List.isChain_cons_cons.mp hlinked.chain).1.1
    simpa [ConnHeap.links, ha] using hnext
  · rintro rfl
    simpa using hlinked.nodup

theorem Holds.ne_of_eq_none (H : q.Holds h conns) {c p : Ptr} (hc : h c = none)
    (hp : p ∈ q.nodes conns) : p ≠ c := by
  rintro rfl
  obtain ⟨_, hp⟩ := H.allocated p hp
  rw [hc] at hp
  cases hp

/-- `insertConn` puts a new `Conn` behind the first sentinel, and changes nothing but links. -/
theorem Holds.insertConn (H : q.Holds h conns) {c : Ptr} (hc : h c = none) (fd : Int) (t : Nat) :
    ∃ h', q.insertConn h fd t c = some (h', { q with total := uint64 (q.total + 1) }) ∧
      Holds { q with total := uint64 (q.total + 1) } h' (c :: conns) ∧
      (h' c).map Conn.content = some { Conn.new fd with thread := some t } ∧
      (∀ p, p ≠ c → (h' p).map Conn.content = (h p).map Conn.content) ∧
      ∀ p, p ≠ c → p ∉ q.nodes conns → h' p = h p := by
  obtain ⟨n, rest, a, b, hnodes, ha, hb, hnext, hab⟩ := H.exists_first
  have hac : q.head ≠ c := H.ne_of_eq_none hc (by simp [hnodes])
  have hbc : n ≠ c := H.ne_of_eq_none hc (by simp [hnodes])
  have hlinks := links_insertedHeap fd t ha hb hac hbc hab
  have hrest : conns ++ [q.tail] = n :: rest := (List.cons.inj hnodes).2
  have hlinked : Linked (h.links.insert q.head c n) (q.head :: c :: n :: rest) := by
    have hlinked : Linked h.links ([] ++ q.head :: n :: rest) := hnodes ▸ H.linked
    exact hlinked.insert fun hmem => H.ne_of_eq_none hc (hnodes ▸ hmem) rfl
  have htail : q.tail ∈ n :: rest := by
    rw [← hrest]
    simp
  have hnew : (q.insertedHeap h fd t c n a b c).map Conn.content =
      some { Conn.new fd with thread := some t } := by
    simp [insertedHeap, ConnHeap.set, Ne.symm hac, Ne.symm hbc, Conn.content, Conn.new]
  have hcontent : ∀ p, p ≠ c →
      (q.insertedHeap h fd t c n a b p).map Conn.content = (h p).map Conn.content :=
    fun p hp => content_insertedHeap fd t ha hb hab hp
  refine ⟨q.insertedHeap h fd t c n a b, insertConn_eq fd t ha hb hnext hac hbc hab,
    ⟨?_, ?_, ?_, ?_, ?_⟩, hnew, hcontent, ?_⟩
  · rw [nodes_cons, hrest]
    exact hlinked.congr fun x _ => hlinks x
  · intro p hp
    by_cases hpc : p = c
    · subst hpc
      exact (Option.map_eq_some_iff.mp hnew).imp fun _ h => h.1
    · exact ConnHeap.exists_of_map_eq (hcontent p hpc)
        (H.allocated p (by rw [nodes_cons] at hp; simp_all [nodes]))
  · rw [(hlinks _).2]
    simp [Links.insert, Ne.symm hab, hac, H.head_pre]
  · have hne : q.tail ≠ q.head := by
      rintro heq
      have hnodup := hlinked.nodup
      simp_all
    have hnec : q.tail ≠ c := H.ne_of_eq_none hc (by simp [nodes])
    rw [(hlinks _).1]
    simp [Links.insert, hne, hnec, H.tail_next]
  · rw [H.total_eq, uint64_add]
    simp
  · intro p hp hnot
    rw [hnodes] at hnot
    exact insertedHeap_of_ne fd t hp (by grind) (by grind)

section Delete

variable {x p n : Ptr} {a b c : Conn}

/-- The heap after `deleteConn`, where `p` and `n` are the neighbours of `x`. -/
def deletedHeap (h : ConnHeap) (x p n : Ptr) (a b : Conn) : ConnHeap :=
  ((h.set p (some { a with next := some n })).set n (some { b with pre := some p })).set x none

theorem deleteConn_eq (hx : h x = some c) (hp : h p = some a) (hn : h n = some b)
    (hpre : c.pre = some p) (hnext : c.next = some n) (hxp : x ≠ p) (hxn : x ≠ n) (hpn : n ≠ p) :
    q.deleteConn h x =
      some (deletedHeap h x p n a b, { q with total := uint64 (q.total - 1) }) := by
  simp only [ConnQueue.deleteConn, ConnHeap.update, ConnHeap.set_of_ne hxp, ConnHeap.set_of_ne hxn,
    ConnHeap.set_of_ne hpn, hx, hp, hn, hpre, hnext, Option.bind_eq_bind, Option.bind_some,
    Option.pure_def]
  rfl

theorem links_deletedHeap (hp : h p = some a) (hn : h n = some b) (hpn : n ≠ p) {y : Ptr}
    (hy : y ≠ x) :
    (deletedHeap h x p n a b).links.next y = (h.links.unlink p n).next y ∧
      (deletedHeap h x p n a b).links.pre y = (h.links.unlink p n).pre y := by
  simp only [ConnHeap.links, deletedHeap, Links.unlink, ConnHeap.set_of_ne hy]
  by_cases hyn : y = n
  · subst hyn
    simp [hpn, hn]
  · by_cases hyp : y = p
    · subst hyp
      simp [ConnHeap.set_of_ne (Ne.symm hpn), Ne.symm hpn, hp]
    · simp [ConnHeap.set_of_ne hyn, ConnHeap.set_of_ne hyp, hyn, hyp]

theorem deletedHeap_of_ne {y : Ptr} (hyx : y ≠ x) (hyp : y ≠ p) (hyn : y ≠ n) :
    deletedHeap h x p n a b y = h y := by
  rw [deletedHeap, ConnHeap.set_of_ne hyx, ConnHeap.set_of_ne hyn, ConnHeap.set_of_ne hyp]

theorem content_deletedHeap (hp : h p = some a) (hn : h n = some b) (hpn : n ≠ p) {y : Ptr}
    (hyx : y ≠ x) :
    (deletedHeap h x p n a b y).map Conn.content = (h y).map Conn.content := by
  rw [deletedHeap, ConnHeap.set_of_ne hyx]
  by_cases hyn : y = n
  · simp [hyn, hn, Conn.content]
  · by_cases hyp : y = p
    · simp [hyp, ConnHeap.set_of_ne (Ne.symm hpn), hp, Conn.content]
    · rw [ConnHeap.set_of_ne hyn, ConnHeap.set_of_ne hyp]

/-- The neighbours of a `Conn` of the list, and the list without it. -/
theorem Holds.exists_neighbours (H : q.Holds h conns) (hx : x ∈ conns) :
    ∃ xs p n ys, q.nodes conns = xs ++ p :: x :: n :: ys ∧
      q.nodes (conns.erase x) = xs ++ p :: n :: ys ∧ q.head ∈ xs ++ [p] ∧ q.tail ∈ n :: ys := by
  obtain ⟨before, after, rfl⟩ := List.append_of_mem hx
  obtain ⟨xs, p, hxs⟩ : ∃ xs p, q.head :: before = xs ++ [p] :=
    (List.eq_nil_or_concat' (q.head :: before)).resolve_left (by simp)
  obtain ⟨n, ys, hys⟩ : ∃ n ys, after ++ [q.tail] = n :: ys :=
    List.exists_cons_of_ne_nil (by simp)
  have hnodes : q.nodes (before ++ x :: after) = xs ++ p :: x :: n :: ys := by
    rw [nodes, List.append_assoc, List.cons_append, hys, ← List.cons_append, hxs]
    simp
  have hnodup := H.linked.nodup
  have hnot : x ∉ before := by
    intro hmem
    have hxs' : x ∈ xs ++ [p] := hxs ▸ List.mem_cons_of_mem _ hmem
    rw [hnodes] at hnodup
    grind
  refine ⟨xs, p, n, ys, hnodes, ?_, hxs ▸ List.mem_cons_self, hys ▸ by simp⟩
  rw [List.erase_append_right _ hnot, List.erase_cons_head, nodes, List.append_assoc, hys,
    ← List.cons_append, hxs]
  simp

end Delete

/-- `deleteConn` takes a `Conn` of the list out of it and frees it, and changes nothing but links of
the others. -/
theorem Holds.deleteConn (H : q.Holds h conns) {x : Ptr} (hx : x ∈ conns) :
    ∃ h', q.deleteConn h x = some (h', { q with total := uint64 (q.total - 1) }) ∧
      Holds { q with total := uint64 (q.total - 1) } h' (conns.erase x) ∧
      h' x = none ∧
      (∀ p, p ≠ x → (h' p).map Conn.content = (h p).map Conn.content) ∧
      ∀ p, p ∉ q.nodes conns → h' p = h p := by
  obtain ⟨xs, p, n, ys, hnodes, hnodes', hheadmem, htailmem⟩ := H.exists_neighbours hx
  have hlinked : Linked h.links (xs ++ p :: x :: n :: ys) := hnodes ▸ H.linked
  have hnodup := hlinked.nodup
  obtain ⟨c, hc⟩ := H.allocated x (by simp [hnodes])
  obtain ⟨a, ha⟩ := H.allocated p (by simp [hnodes])
  obtain ⟨b, hb⟩ := H.allocated n (by simp [hnodes])
  obtain ⟨hpre, hnext⟩ := hlinked.neighbours
  simp only [ConnHeap.links, hc, Option.bind_some] at hpre hnext
  have hxp : x ≠ p := by grind
  have hxn : x ≠ n := by grind
  have hpn : n ≠ p := by grind
  have hhead : q.head ≠ x ∧ q.head ≠ n := by grind
  have htail : q.tail ≠ x ∧ q.tail ≠ p := by grind
  have hlinks {y : Ptr} (hy : y ≠ x) := links_deletedHeap ha hb hpn hy
  have hcontent : ∀ y, y ≠ x →
      (deletedHeap h x p n a b y).map Conn.content = (h y).map Conn.content :=
    fun y hyx => content_deletedHeap ha hb hpn hyx
  refine ⟨deletedHeap h x p n a b, deleteConn_eq hc ha hb hpre hnext hxp hxn hpn,
    ⟨?_, ?_, ?_, ?_, ?_⟩, ?_, hcontent, ?_⟩
  · change Linked _ (q.nodes (conns.erase x))
    rw [hnodes']
    exact hlinked.unlink.congr fun y hy => hlinks (by grind)
  · intro y hy
    have hy' : y ∈ xs ++ p :: n :: ys := hnodes' ▸ hy
    exact ConnHeap.exists_of_map_eq (hcontent y (by grind))
      (H.allocated y (by rw [hnodes]; grind))
  · rw [(hlinks hhead.1).2]
    simp [Links.unlink, hhead.2, H.head_pre]
  · rw [(hlinks htail.1).1]
    simp [Links.unlink, htail.2, H.tail_next]
  · have hlen : (conns.length : Int) + -1 = (conns.erase x).length := by
      have := List.length_pos_of_mem hx
      rw [List.length_erase_of_mem hx]
      omega
    rw [H.total_eq, Int.sub_eq_add_neg, uint64_add, hlen]
  · simp [deletedHeap]
  · intro y hy
    rw [hnodes] at hy
    exact deletedHeap_of_ne (by grind) (by grind) (by grind)

/-- A new queue holds no `Conn`. -/
theorem holds_new (h : ConnHeap) {head tail : Ptr} (hne : head ≠ tail) :
    Holds (new h head tail).2 (new h head tail).1 [] := by
  have hhead : (new h head tail).1 head = some { Conn.new 0 with next := some tail } := by
    simp [new, ConnHeap.set_of_ne hne]
  have htail : (new h head tail).1 tail = some { Conn.new 0 with pre := some head } := by
    simp [new]
  refine ⟨⟨?_, ?_⟩, ?_, ?_, ?_, ?_⟩
  · simpa [nodes, new] using hne
  · simp [nodes, new, Links.Neighbours, ConnHeap.links, ConnHeap.set_of_ne hne]
  · intro p hp
    simp only [nodes, new, List.nil_append, List.mem_cons, List.not_mem_nil, or_false] at hp
    rcases hp with rfl | rfl
    · exact ⟨_, hhead⟩
    · exact ⟨_, htail⟩
  · simp [new, ConnHeap.links, ConnHeap.set_of_ne hne, Conn.new]
  · simp [new, ConnHeap.links, Conn.new]
  · simp [new, uint64]

/-- The loop of the destructor deletes the nodes that it is led to, if they are allocated and none
of them comes twice. -/
theorem run_destructorRound {tcur : Option Ptr} {l : List Ptr}
    (hnext : Traverses h.links.next tcur l) (hnodup : l.Nodup) (halloc : ∀ p ∈ l, ∃ c, h p = some c)
    (deleted : List Ptr) {n : Nat} (hn : l.length < n) :
    WhileLoop.run destructorRound n (some ⟨h, tcur, deleted⟩) =
      some (some ⟨h.free l, none, deleted ++ l⟩) := by
  induction l generalizing h tcur deleted n with
  | nil =>
    obtain rfl : tcur = none := hnext
    obtain ⟨n, rfl⟩ : ∃ k, n = k + 1 := ⟨n - 1, by omega⟩
    simp only [WhileLoop.run, destructorRound, ConnHeap.free_nil, List.append_nil]
  | cons p l ih =>
    obtain ⟨rfl, hnext⟩ := hnext
    obtain ⟨hp, hnodup⟩ := List.nodup_cons.mp hnodup
    obtain ⟨c, hc⟩ := halloc p (by simp)
    rw [List.length_cons] at hn
    obtain ⟨n, rfl⟩ : ∃ k, n = k + 1 := ⟨n - 1, by omega⟩
    -- The nodes still to come are not touched by the deletion of this one.
    have hkeep : ∀ x ∈ l, h.set p none x = h x := by
      intro x hx
      refine ConnHeap.set_of_ne ?_ none
      rintro rfl
      exact hp hx
    have hrest : Traverses (h.set p none).links.next c.next l := by
      simp only [ConnHeap.links, hc, Option.bind_some] at hnext
      exact hnext.congr fun x hx => by simp only [ConnHeap.links, hkeep x hx]
    have hstep := ih hrest hnodup (fun x hx => by rw [hkeep x hx]; exact halloc x (by simp [hx]))
      (deleted ++ [p]) (n := n) (by omega)
    simp only [WhileLoop.run, destructorRound, hc]
    rw [hstep, ConnHeap.free_set_none, List.append_assoc, List.singleton_append]

/-- The links from the first sentinel forward and from the last one backward visit all nodes. -/
theorem Holds.traverses (H : q.Holds h conns) :
    Traverses h.links.next (some q.head) (q.nodes conns) ∧
      Traverses h.links.pre (some q.tail) (q.nodes conns).reverse := by
  have hlinked : Linked h.links ((q.head :: conns) ++ [q.tail]) := H.linked
  have hnext := hlinked.traverses_next H.tail_next
  have hpre := H.linked.traverses_pre H.head_pre
  rw [← List.cons_append, List.getLast?_concat] at hpre
  exact ⟨hnext, hpre⟩

/-- The destructor ends, and has then deleted each node of the list once and nothing else. -/
theorem Holds.destructor (H : q.Holds h conns) {n : Nat} (hn : conns.length + 3 ≤ n) :
    q.destructor h n = some (some ⟨h.free (q.nodes conns), none, q.nodes conns⟩) := by
  refine run_destructorRound H.traverses.1 H.linked.nodup H.allocated [] ?_
  simp only [nodes, List.length_cons, List.length_append, List.length_nil]
  omega

/-- A queue depends on the links of its own nodes only. -/
theorem Holds.congr {h' : ConnHeap} (H : q.Holds h conns)
    (heq : ∀ p ∈ q.nodes conns, (h' p).map Conn.ends = (h p).map Conn.ends) :
    q.Holds h' conns := by
  have hlinks : ∀ p ∈ q.nodes conns,
      h'.links.next p = h.links.next p ∧ h'.links.pre p = h.links.pre p := by
    intro p hp
    have hnext := congrArg (Option.bind · Prod.snd) (heq p hp)
    have hpre := congrArg (Option.bind · Prod.fst) (heq p hp)
    simp only [Option.bind_map] at hnext hpre
    exact ⟨hnext, hpre⟩
  refine ⟨H.linked.congr hlinks, fun p hp => ?_, ?_, ?_, H.total_eq⟩
  · exact ConnHeap.exists_of_map_eq (heq p hp) (H.allocated p hp)
  · rw [(hlinks q.head (by simp [nodes])).2, H.head_pre]
  · rw [(hlinks q.tail (by simp [nodes])).1, H.tail_next]

end ConnQueue

end MRpc
