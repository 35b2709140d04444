import Mathlib.Data.List.Infix
import Yfs.Common.Pick
import Yfs.Common.Run
import Yfs.Connection.Write

/-!
# Outgoing PDUs

Whatever the threads that send, the callbacks and the system call
`write` do, what is written to the socket is one PDU after the other, each
whole but perhaps the last (`sends_inOrder`). While the connection is
alive it is either idle or busy with the PDU of exactly one call of
`send`, which waits for it (`Alive`); nothing is written on a connection
that is dead.
-/

namespace Yfs

open Common

/-! ## PDUs on the wire -/

namespace Pdu

/-- The bytes of a PDU on the wire: its size, and the rest as it is. -/
def bytes (p : Pdu) : List UInt8 := be32 (UInt32.ofNat p.sz) ++ bytesAt p.b 4 (p.sz - 4)

/-- The memory of a PDU with the size stored. -/
def frame (p : Pdu) : ℕ → UInt8 := writeAt p.b 0 (htonl p.sz)

theorem htonl_sz (p : Pdu) : htonl p.sz = be32 (UInt32.ofNat p.sz) := by
  have hint := p.int
  have hmod : ((p.sz : ℤ) % 2 ^ 32).toNat = p.sz := by omega
  rw [htonl, UInt32.ofInt, hmod]

theorem bytes_eq (p : Pdu) : p.bytes = bytesAt p.frame 0 p.sz := by
  have hheader : 24 ≤ p.sz := p.header
  have hsz : p.sz = (be32 (UInt32.ofNat p.sz)).length + (p.sz - 4) := by
    rw [length_be32]
    omega
  rw [frame, htonl_sz]
  conv_rhs =>
    arg 3
    rw [hsz]
  rw [bytesAt_add, bytesAt_writeAt, bytesAt_writeAt_of_ge _ _ (Nat.le_refl _)]
  rfl

/-- The first four bytes are the size. -/
theorem take_bytes (p : Pdu) : p.bytes.take 4 = be32 (UInt32.ofNat p.bytes.length) := by
  have hlen : p.bytes.length = p.sz := by rw [bytes_eq, length_bytesAt]
  rw [hlen, bytes, List.take_left' (length_be32 _)]

/-- Storing the size once more changes nothing. -/
theorem writeAt_frame (p : Pdu) : writeAt p.frame 0 (htonl p.sz) = p.frame := by
  refine writeAt_congr fun k hk => ?_
  rcases hk with hk | hk
  · exact writeAt_of_lt _ _ hk
  · exact writeAt_of_le _ _ hk

end Pdu

/-! ## What is promised -/

/-- A call that returned true had its PDU written to the end. -/
def Sent (obtained : List Pdu) (out : List UInt8) (r : Returned) : Prop :=
  r.ret = true → ∃ k, r.place = some k ∧ obtained[k]? = some r.pdu ∧
    (obtained.take (k + 1)).flatMap Pdu.bytes <+: out

/-- The order of what is written. -/
structure InOrder (s : Outgoing) : Prop where
  /-- All PDUs but the last one are written in full, -/
  complete : s.obtained.dropLast.flatMap Pdu.bytes <+: s.out
  /-- and nothing but PDUs, in the order in which they obtained `wpdu_`. -/
  ordered : s.out <+: s.obtained.flatMap Pdu.bytes
  /-- Each begins with its own size. -/
  sized : ∀ p ∈ s.obtained, p.bytes.take 4 = be32 (UInt32.ofNat p.bytes.length)
  /-- Where no PDU is being written, all are written in full, or the
  connection is dead, -/
  ended : s.wpdu.buf = none → s.out = s.obtained.flatMap Pdu.bytes ∨ s.conn.dead = true
  /-- and then nothing more is written. -/
  final : s.conn.dead = true → ∀ a s', s.step a = some s' → s'.out = s.out ∧ s'.conn.dead = true
  /-- `send` returns true only if its own PDU is written in full. -/
  sent : ∀ r ∈ s.returned, Sent s.obtained s.out r

/-! ## The connection is idle, or busy with one PDU -/

/-- The call has not obtained `wpdu_`. -/
def Sender.Outside (t : Sender) : Prop := t.pc = .start ∨ t.pc = .waiting

instance (t : Sender) : Decidable t.Outside := inferInstanceAs (Decidable (_ ∨ _))

/-- `wpdu_` with `n` bytes of `p` written. The size is stored in the
memory before the first of them is. -/
structure Holding (p : Pdu) (n : ℕ) (w : Charbuf) (b : ℕ → UInt8) : Prop where
  eq : w = ⟨some b, p.sz, p.sz, n⟩
  stored : writeAt b 0 (htonl p.sz) = p.frame
  framed : n ≠ 0 → b = p.frame
  le : n ≤ p.sz

/-- A connection that is alive. -/
inductive Alive (s : Outgoing) : Prop where
  | idle (hw : s.wpdu = .empty) (hout : s.out = s.obtained.flatMap Pdu.bytes)
      (hs : ∀ t ∈ s.senders, t.Outside)
  | busy (ps : List Pdu) (p : Pdu) (n : ℕ) (b : ℕ → UInt8)
      (hw : Holding p n s.wpdu b) (hobt : s.obtained = ps ++ [p])
      (hout : s.out = ps.flatMap Pdu.bytes ++ bytesAt p.frame 0 n)
      (hs : ∀ t ∈ s.senders, t.Outside ∨ t = ⟨p, .completing ps.length⟩)
      (hone : s.senders.countP (fun t => ¬ t.Outside) = 1)

/-- The invariant. -/
structure Sound (s : Outgoing) : Prop where
  complete : s.obtained.dropLast.flatMap Pdu.bytes <+: s.out
  ordered : s.out <+: s.obtained.flatMap Pdu.bytes
  sent : ∀ r ∈ s.returned, Sent s.obtained s.out r
  alive : s.conn.dead = false → Alive s

variable {s s' : Outgoing} {r : WriteResult}

theorem Alive.complete (h : Alive s) : s.obtained.dropLast.flatMap Pdu.bytes <+: s.out := by
  cases h with
  | idle _ hout _ =>
    rw [hout]
    exact (List.dropLast_prefix _).flatMap _
  | busy ps p n b hw hobt hout _ _ =>
    rw [hobt, hout, List.dropLast_concat]
    exact List.prefix_append _ _

theorem Alive.ordered (h : Alive s) : s.out <+: s.obtained.flatMap Pdu.bytes := by
  cases h with
  | idle _ hout _ => exact hout ▸ List.prefix_rfl
  | busy ps p n b hw hobt hout _ _ =>
    have hn : p.sz = n + (p.sz - n) := by
      have := hw.le
      omega
    rw [hobt, hout, List.flatMap_append, List.flatMap_singleton, p.bytes_eq]
    conv_rhs =>
      arg 2
      rw [hn, bytesAt_add]
    exact (List.prefix_append_right_inj _).2 (List.prefix_append _ _)

theorem Sent.mono {l l' : List Pdu} {o o' : List UInt8} {r : Returned} (h : Sent l o r)
    (hl : l <+: l') (ho : o <+: o') : Sent l' o' r := by
  intro hret
  obtain ⟨k, hplace, hk, hwritten⟩ := h hret
  obtain ⟨m, rfl⟩ := hl
  have hlt : k < l.length := (List.getElem?_eq_some_iff.1 hk).1
  refine ⟨k, hplace, ?_, ?_⟩
  · rw [List.getElem?_append_left hlt, hk]
  · rw [List.take_append_of_le_length (by omega)]
    exact hwritten.trans ho

/-- What `writepdu` can do to a PDU of which `n` bytes are written. -/
inductive Wrote (s : Outgoing) (p : Pdu) (n : ℕ) : Outgoing × Bool → Prop where
  | on (m : ℕ) (w : Charbuf) (b : ℕ → UInt8) (hw : Holding p (n + m) w b) :
      Wrote s p n ({ s with wpdu := w, out := s.out ++ bytesAt p.frame n m }, true)
  | fail (w : Charbuf) : Wrote s p n ({ s with wpdu := w }, false)

theorem Wrote.senders {p : Pdu} {n : ℕ} {w : Outgoing × Bool} (h : Wrote s p n w) :
    w.1.senders = s.senders := by
  cases h with
  | on => rfl
  | fail => rfl

theorem Holding.writepdu {p : Pdu} {n : ℕ} {b : ℕ → UInt8} {w : Outgoing × Bool}
    (h : Holding p n s.wpdu b) (hs : s.writepdu r = some w) : Wrote s p n w := by
  have hframe : (if (n : ℤ) = 0 then writeAt b 0 (htonl p.sz) else b) = p.frame := by
    split
    · exact h.stored
    · exact h.framed (by omega)
  unfold Outgoing.writepdu at hs
  rw [h.eq] at hs
  dsimp only at hs
  rw [if_neg (by omega)] at hs
  split at hs
  · -- nothing is left to write
    obtain rfl := Option.some.inj hs
    have hon := Wrote.on (s := s) (p := p) (n := n) 0 s.wpdu b h
    rwa [bytesAt_zero, List.append_nil] at hon
  · rw [Option.bind_some, hframe] at hs
    have hheld : ∀ m : ℕ, n + m ≤ p.sz →
        Holding p (n + m) ⟨some p.frame, p.sz, p.sz, (n : ℤ) + m⟩ p.frame :=
      fun m hm => ⟨rfl, p.writeAt_frame, fun _ => rfl, hm⟩
    split at hs
    · obtain rfl := Option.some.inj hs
      have hon := Wrote.on (s := s) 0 _ _ (hheld 0 h.le)
      rwa [bytesAt_zero, List.append_nil, Int.natCast_zero, Int.add_zero] at hon
    · obtain rfl := Option.some.inj hs
      exact .fail _
    · rename_i m
      split at hs
      · obtain rfl := Option.some.inj hs
        exact .on m _ _ (hheld m (by omega))
      · cases hs

/-! ## Steps -/

/-- What does not touch the writing side keeps the invariant, if it does
not bring the connection back to life. -/
theorem Sound.conn (h : Sound s) {c : Connection} {w : ℤ}
    (hdead : s.conn.dead = true → c.dead = true) : Sound { s with conn := c, waiters := w } where
  complete := h.complete
  ordered := h.ordered
  sent := h.sent
  alive hc := by
    have hlive : s.conn.dead = false := by
      by_contra hne
      rw [Bool.not_eq_false] at hne
      rw [hdead hne] at hc
      cases hc
    cases h.alive hlive with
    | idle hw hout hs => exact .idle hw hout hs
    | busy ps p n b hw hobt hout hs hone => exact .busy ps p n b hw hobt hout hs hone

/-- `writepdu` on the PDU the connection is busy with. -/
theorem Sound.writepdu (h : Sound s) {ps : List Pdu} {p : Pdu} {n : ℕ} {w : Outgoing × Bool}
    (hw : Wrote s p n w) (hobt : s.obtained = ps ++ [p])
    (hout : s.out = ps.flatMap Pdu.bytes ++ bytesAt p.frame 0 n)
    (hs : ∀ t ∈ s.senders, t.Outside ∨ t = ⟨p, .completing ps.length⟩)
    (hone : s.senders.countP (fun t => ¬ t.Outside) = 1) :
    Sound (if w.2 = true then w.1 else w.1.die) := by
  cases hw with
  | on m w b hw =>
    have halive : Alive { s with wpdu := w, out := s.out ++ bytesAt p.frame n m } := by
      refine .busy ps p (n + m) b hw hobt ?_ hs hone
      dsimp only
      rw [hout, List.append_assoc, bytesAt_add, Nat.zero_add]
    exact ⟨halive.complete, halive.ordered,
      fun r hr => (h.sent r hr).mono List.prefix_rfl (List.prefix_append _ _), fun _ => halive⟩
  | fail w =>
    refine ⟨h.complete, h.ordered, h.sent, fun hd => ?_⟩
    cases hd

theorem Sound.writeCb (h : Sound s) (hs : s.writeCb r = some s') : Sound s' := by
  unfold Outgoing.writeCb at hs
  by_cases hdead : s.conn.dead = true
  · rw [if_pos hdead] at hs
    cases hs
  rw [if_neg hdead] at hs
  cases h.alive (by simpa using hdead) with
  | idle hw hout _ =>
    rw [if_pos (by rw [hw]; rfl)] at hs
    exact Option.some.inj hs ▸ h
  | busy ps p n b hw hobt hout hsenders hone =>
    have hsz : s.wpdu.sz ≠ 0 := by
      have hheader : 24 ≤ p.sz := p.header
      rw [hw.eq]
      dsimp only
      omega
    rw [if_neg hsz] at hs
    obtain ⟨w, hwrite, hs⟩ := Option.bind_eq_some_iff.1 hs
    have hsound := h.writepdu (hw.writepdu hwrite) hobt hout hsenders hone
    dsimp only at hs
    by_cases hok : w.2 = true
    · rw [if_pos hok] at hsound
      rw [if_neg (by simp [hok])] at hs
      split at hs
      · cases hs
      · split at hs
        · exact Option.some.inj hs ▸ hsound
        · exact Option.some.inj hs ▸ hsound.conn id
    · rw [if_neg hok] at hsound
      rw [if_pos (by simpa using hok)] at hs
      exact Option.some.inj hs ▸ hsound.conn fun _ => rfl

/-- The end of `send`: on a dead connection, or with its PDU written in
full. -/
theorem Sound.finish (h : Sound s) {p : Pdu} {k : ℕ} {rest : List Sender}
    (ht : s.senders.Perm (⟨p, .completing k⟩ :: rest) ∨ s.conn.dead = true)
    (hdone : s.conn.dead = false → s.wpdu.sz ≤ s.wpdu.solong) : Sound (s.finish p k rest) := by
  by_cases hdead : s.conn.dead = true
  · refine ⟨h.complete, h.ordered, fun r hr => ?_, fun hd => ?_⟩
    · rcases List.mem_cons.1 hr with rfl | hr
      · intro hret
        simp [hdead] at hret
      · exact h.sent r hr
    · exact absurd (hdead.symm.trans hd) (by simp)
  · have hlive : s.conn.dead = false := by simpa using hdead
    have ht := ht.resolve_right hdead
    cases h.alive hlive with
    | idle _ _ hs =>
      have := hs _ (ht.symm.subset List.mem_cons_self)
      simp [Sender.Outside] at this
    | busy ps q n b hw hobt hout hs hone =>
      have hown : (⟨p, .completing k⟩ : Sender) = ⟨q, .completing ps.length⟩ :=
        (hs _ (ht.symm.subset List.mem_cons_self)).resolve_left (by simp [Sender.Outside])
      obtain ⟨rfl, rfl⟩ : p = q ∧ k = ps.length := by simpa using hown
      have hn : n = p.sz := by
        have hle := hw.le
        have := hdone hlive
        rw [hw.eq] at this
        dsimp only at this
        omega
      have hwritten : s.out = s.obtained.flatMap Pdu.bytes := by
        rw [hout, hobt, hn, ← p.bytes_eq, List.flatMap_append, List.flatMap_singleton]
      have hrest : ∀ t ∈ rest, t.Outside := by
        rw [ht.countP_eq, List.countP_cons_of_pos (by simp [Sender.Outside])] at hone
        have hzero : rest.countP (fun t => ¬ t.Outside) = 0 := by omega
        simpa using List.countP_eq_zero.1 hzero
      refine ⟨h.complete, h.ordered, fun r hr => ?_, fun _ => .idle rfl hwritten hrest⟩
      rcases List.mem_cons.1 hr with rfl | hr
      · intro _
        refine ⟨ps.length, rfl, ?_, ?_⟩
        · change s.obtained[ps.length]? = some p
          rw [hobt, List.getElem?_concat_length]
        · change (s.obtained.take (ps.length + 1)).flatMap Pdu.bytes <+: s.out
          rw [List.take_of_length_le (by simp [hobt]), hwritten]
      · exact h.sent r hr

/-- A call that has not obtained `wpdu_` can be left out, -/
theorem Sound.remove (h : Sound s) {t : Sender} {rest : List Sender}
    (ht : s.senders.Perm (t :: rest)) (hout : t.Outside) : Sound { s with senders := rest } where
  complete := h.complete
  ordered := h.ordered
  sent := h.sent
  alive hlive := by
    have hsub : ∀ u ∈ rest, u ∈ s.senders :=
      fun u hu => ht.symm.subset (List.mem_cons_of_mem t hu)
    cases h.alive hlive with
    | idle hw ho hs => exact .idle hw ho fun u hu => hs u (hsub u hu)
    | busy ps p n b hw hobt ho hs hone =>
      rw [ht.countP_eq, List.countP_cons_of_neg (by simpa using hout)] at hone
      exact .busy ps p n b hw hobt ho (fun u hu => hs u (hsub u hu)) hone

/-- and put in. -/
theorem Sound.add (h : Sound s) {t : Sender} (hout : t.Outside) :
    Sound { s with senders := t :: s.senders } where
  complete := h.complete
  ordered := h.ordered
  sent := h.sent
  alive hlive := by
    cases h.alive hlive with
    | idle hw ho hs => exact .idle hw ho (List.forall_mem_cons.2 ⟨hout, hs⟩)
    | busy ps p n b hw hobt ho hs hone =>
      refine .busy ps p n b hw hobt ho (List.forall_mem_cons.2 ⟨.inl hout, hs⟩) ?_
      dsimp only
      rwa [List.countP_cons_of_neg (by simpa using hout)]

/-- An idle connection becomes busy with a new PDU. -/
theorem Sound.obtainWpdu (h : Sound s) (p : Pdu) {rest : List Sender}
    (hout : s.out = s.obtained.flatMap Pdu.bytes) (hrest : ∀ t ∈ rest, t.Outside) :
    Sound (s.obtainWpdu p rest) ∧
      (∀ t ∈ (s.obtainWpdu p rest).senders,
        t.Outside ∨ t = ⟨p, .completing s.obtained.length⟩) ∧
      (s.obtainWpdu p rest).senders.countP (fun t => ¬ t.Outside) = 1 := by
  have hs : ∀ t ∈ (s.obtainWpdu p rest).senders,
      t.Outside ∨ t = ⟨p, .completing s.obtained.length⟩ :=
    List.forall_mem_cons.2 ⟨.inr rfl, fun t ht => .inl (hrest t ht)⟩
  have hone : (s.obtainWpdu p rest).senders.countP (fun t => ¬ t.Outside) = 1 := by
    have hzero : rest.countP (fun t => ¬ t.Outside) = 0 :=
      List.countP_eq_zero.2 fun t ht => by simpa using hrest t ht
    rw [Outgoing.obtainWpdu]
    dsimp only
    rw [List.countP_cons_of_pos (by simp [Sender.Outside]), hzero]
  have halive : Alive (s.obtainWpdu p rest) := by
    refine .busy s.obtained p 0 p.b ⟨rfl, rfl, fun hne => absurd rfl hne, Nat.zero_le _⟩ rfl ?_ hs
      hone
    rw [bytesAt_zero, List.append_nil]
    exact hout
  exact ⟨⟨halive.complete, halive.ordered,
    fun r hr => (h.sent r hr).mono (List.prefix_append _ _) List.prefix_rfl, fun _ => halive⟩,
    hs, hone⟩

/-- **A call of `send` tries to obtain `wpdu_`**: it waits, returns false,
or starts to write on an idle connection. -/
theorem Sound.trySend (h : Sound s) {t : Sender} {rest : List Sender}
    (ht : s.senders.Perm (t :: rest)) (hout : t.Outside)
    (hs : s.trySend t.pdu rest r = some s') : Sound s' := by
  unfold Outgoing.trySend at hs
  split at hs
  · exact Option.some.inj hs ▸ (h.remove ht hout).add (.inr rfl)
  rename_i hgo
  dsimp only at hs
  split at hs
  · rename_i hdead
    obtain rfl := Option.some.inj hs
    refine ⟨h.complete, h.ordered, fun r hr => ?_, fun hd => ?_⟩
    · rcases List.mem_cons.1 hr with rfl | hr
      · intro hret
        cases hret
      · exact h.sent r hr
    · exact absurd (hdead.symm.trans hd) (by simp)
  rename_i hdead
  have hlive : s.conn.dead = false := by simpa using hdead
  obtain ⟨w, hwrite, rfl⟩ := Option.map_eq_some_iff.1 hs
  cases h.alive hlive with
  | busy ps p n b hw _ _ _ _ => exact absurd ⟨hlive, by rw [hw.eq]; rfl⟩ hgo
  | idle _ ho hsenders =>
    have hrest : ∀ u ∈ rest, u.Outside :=
      fun u hu => hsenders u (ht.symm.subset (List.mem_cons_of_mem t hu))
    have h' : Sound { s with waiters := s.waiters - 1 } := h.conn id
    obtain ⟨hsound, hs, hone⟩ := h'.obtainWpdu t.pdu ho hrest
    have hwrote := Holding.writepdu (n := 0) (b := t.pdu.b)
      ⟨rfl, rfl, fun hne => absurd rfl hne, Nat.zero_le _⟩ hwrite
    have hsound' := hsound.writepdu hwrote rfl (by rw [bytesAt_zero, List.append_nil]; exact ho)
      hs hone
    by_cases hok : w.2 = true
    · rw [if_pos hok] at hsound'
      rw [if_neg (by simp [hok])]
      split
      · rename_i hdone
        refine hsound'.finish (.inl ?_) fun _ => Int.le_of_eq hdone.symm
        rw [hwrote.senders]
        exact List.Perm.refl _
      · exact hsound'
    · rw [if_neg hok] at hsound'
      rw [if_pos (by simpa using hok)]
      refine ⟨hsound'.complete, hsound'.ordered, hsound'.sent, fun hd => ?_⟩
      cases hd

/-- The order of the calls does not matter. -/
theorem Sound.perm (h : Sound s) {l : List Sender} (hl : s.senders.Perm l) :
    Sound { s with senders := l } where
  complete := h.complete
  ordered := h.ordered
  sent := h.sent
  alive hlive := by
    cases h.alive hlive with
    | idle hw hout hs => exact .idle hw hout fun t ht => hs t (hl.symm.subset ht)
    | busy ps p n b hw hobt hout hs hone =>
      exact .busy ps p n b hw hobt hout (fun t ht => hs t (hl.symm.subset ht))
        (hl.countP_eq _ ▸ hone)

theorem Alive.solong_nonneg (h : Alive s) : 0 ≤ s.wpdu.solong := by
  cases h with
  | idle hw _ _ =>
    rw [hw]
    exact Int.le_refl 0
  | busy ps p n b hw _ _ _ _ =>
    rw [hw.eq]
    exact Int.natCast_nonneg n

/-- A call that gave up the descriptor did so on a dead connection. -/
theorem Alive.not_removing (h : Alive s) {p : Pdu} {k : ℕ} : ⟨p, .removing k⟩ ∉ s.senders := by
  intro hmem
  cases h with
  | idle _ _ hs =>
    have := hs _ hmem
    simp [Sender.Outside] at this
  | busy ps p n b _ _ _ hs _ =>
    have := hs _ hmem
    simp [Sender.Outside] at this

theorem Sound.runSender (h : Sound s) {t : Sender} {rest : List Sender}
    (ht : s.senders.Perm (t :: rest)) (hs : s.runSender t rest r = some s') : Sound s' := by
  obtain ⟨pdu, pc⟩ := t
  cases pc with
  | start =>
    have h' : Sound { s with waiters := s.waiters + 1 } := h.conn id
    exact h'.trySend ht (.inl rfl) hs
  | waiting => exact h.trySend ht (.inr rfl) hs
  | completing k =>
    unfold Outgoing.runSender at hs
    dsimp only at hs
    split at hs
    · exact Option.some.inj hs ▸ h.perm ht
    · rename_i hdone
      obtain rfl := Option.some.inj hs
      refine h.finish (.inl ht) fun hlive => ?_
      have := (h.alive hlive).solong_nonneg
      by_contra hlt
      exact hdone ⟨hlive, this, by omega⟩
  | removing k =>
    obtain rfl := Option.some.inj hs
    have hdead : s.conn.dead = true := by
      by_contra hlive
      exact (h.alive (by simpa using hlive)).not_removing (ht.symm.subset List.mem_cons_self)
    have h' : Sound { s with conn := { s.conn with watched := false } } := h.conn id
    exact h'.finish (.inr hdead) fun hlive => absurd (hdead.symm.trans hlive) (by simp)

theorem sound_new (errno : Errno) : Sound (.new errno) where
  complete := List.nil_prefix
  ordered := List.nil_prefix
  sent _ hr := by cases hr
  alive _ := .idle rfl rfl fun _ ht => by cases ht

theorem Sound.step {a : Outgoing.Act} (h : Sound s) (hs : s.step a = some s') : Sound s' := by
  cases a with
  | send pdu =>
    obtain rfl := Option.some.inj hs
    have h' : Sound { s with senders := ⟨pdu, .start⟩ :: s.senders } := h.add (.inl rfl)
    exact h'.perm (List.perm_append_singleton _ _).symm
  | run k r =>
    obtain ⟨t, ht, hs⟩ := Option.bind_eq_some_iff.1 hs
    exact h.runSender (perm_eraseIdx ht) hs
  | writeCb r => exact h.writeCb hs
  | readCb mem io =>
    obtain ⟨c, hc, rfl⟩ := Option.map_eq_some_iff.1 hs
    refine h.conn fun hdead => ?_
    rw [Connection.readCb_of_dead hdead] at hc
    exact Option.some.inj hc ▸ hdead
  | closeconn =>
    obtain rfl := Option.some.inj hs
    rw [Outgoing.closeconn]
    split
    · exact h
    · exact h.conn fun _ => rfl

/-- **Nothing is written on a dead connection.** -/
theorem out_of_dead {a : Outgoing.Act} (hdead : s.conn.dead = true) (hs : s.step a = some s') :
    s'.out = s.out ∧ s'.conn.dead = true := by
  have htry : ∀ (w : ℤ) (pdu : Pdu) (rest : List Sender) (r : WriteResult),
      { s with waiters := w }.trySend pdu rest r = some s' →
      s'.out = s.out ∧ s'.conn.dead = true := by
    intro w pdu rest r hs
    rw [Outgoing.trySend, if_neg (by simp [hdead])] at hs
    dsimp only at hs
    rw [if_pos hdead] at hs
    exact Option.some.inj hs ▸ ⟨rfl, hdead⟩
  cases a with
  | send pdu => exact Option.some.inj hs ▸ ⟨rfl, hdead⟩
  | run k r =>
    obtain ⟨⟨pdu, pc⟩, -, hs⟩ := Option.bind_eq_some_iff.1 hs
    cases pc with
    | start => exact htry _ _ _ _ hs
    | waiting => exact htry s.waiters _ _ _ hs
    | completing k =>
      rw [Outgoing.runSender] at hs
      dsimp only at hs
      rw [if_neg (by simp [hdead])] at hs
      exact Option.some.inj hs ▸ ⟨rfl, hdead⟩
    | removing k => exact Option.some.inj hs ▸ ⟨rfl, hdead⟩
  | writeCb r =>
    change s.writeCb r = some s' at hs
    rw [Outgoing.writeCb, if_pos hdead] at hs
    cases hs
  | readCb mem io =>
    obtain ⟨c, hc, rfl⟩ := Option.map_eq_some_iff.1 hs
    rw [Connection.readCb_of_dead hdead] at hc
    exact Option.some.inj hc ▸ ⟨rfl, hdead⟩
  | closeconn =>
    obtain rfl := Option.some.inj hs
    rw [Outgoing.closeconn, if_pos hdead]
    exact ⟨rfl, hdead⟩

theorem Sound.inOrder (h : Sound s) : InOrder s where
  complete := h.complete
  ordered := h.ordered
  sized p _ := p.take_bytes
  ended hbuf := by
    by_cases hdead : s.conn.dead = true
    · exact .inr hdead
    · cases h.alive (by simpa using hdead) with
      | idle _ hout _ => exact .inl hout
      | busy ps p n b hw _ _ _ _ =>
        rw [hw.eq] at hbuf
        cases hbuf
  final hdead _ _ hs := out_of_dead hdead hs
  sent := h.sent

/-- **Outgoing PDUs are never interleaved.** In every state of every run
what was written is a concatenation of PDUs, each with its size in the
first four bytes, in the order in which the calls of `send` obtained
`wpdu_`, whole but for the last; one that stays incomplete is the end of
what is written; and a call returns true only if its own PDU was written
in full. -/
theorem sends_inOrder (errno : Errno) (acts : List Outgoing.Act) :
    Along Outgoing.step InOrder (.new errno) acts :=
  along_invariant (fun _ _ _ h hs => h.step hs) (fun _ h => h.inOrder) (sound_new errno)

end Yfs
