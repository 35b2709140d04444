import Yfs.Files.Dirents
import Yfs.Files.Listing

/-!
# Reading a directory by pages

A directory is read by calls of `fuseserver_readdir`, from offset 0 on,
each from the offset in the last entry that the one before returned, until
a reply is empty. Each call lays out the whole directory anew, the newest
entry first, and replies with a page of it. So a page continues the one
before as long as the directory has not changed (`scanned_of_createsLater`);
a file created in between moves all entries up, and some are returned
again.
-/

namespace Yfs

open Common

/-! ## The scan -/

/-- A directory whose names have no `':'`, and which `getDirContent`
decodes. No extent is longer than `maxextent`. -/
structure Decoded (ino : UInt64) (es : List DirEntry) (s : ExtentServer) : Prop where
  isdir : YfsClient.isdir ino = true
  get : s.get ino = (.ok, dirString es)
  length_le : (dirString es).length ≤ maxextent
  noColon : ∀ e ∈ es, colon ∉ e.name
  listed : YfsClient.getDirContent s ino = some (.ok, es.map DirEntry.pair)

/-- One who reads a directory. -/
structure Scan where
  server : ExtentServer
  /-- Where the next page starts. -/
  off : ℕ
  received : List (List UInt8 × UInt64)
  calls : ℕ
  /-- The last reply was empty. -/
  done : Bool

namespace Scan

/-- Before the first call. -/
def start (s : ExtentServer) : Scan := ⟨s, 0, [], 0, false⟩

/-- What can happen. -/
inductive Act where
  /-- The next page is read, of `size` bytes at most. -/
  | readdir (size : UInt64)
  /-- A file or a directory is created in the directory. -/
  | create (c : Creation)

/-- A reply comes. -/
def receive (parse : List UInt8 → List Dirent) (s : Scan) (bytes : List UInt8) : Scan :=
  let ds := parse bytes
  { s with
    off := (ds.getLast?.map Dirent.off).getD s.off
    received := s.received ++ ds.map Dirent.entry
    calls := s.calls + 1
    done := bytes.isEmpty }

/-- One step. A page has room for the largest entry. -/
def step (lib : LibFuse) (parse : List UInt8 → List Dirent) (ino : UInt64) (s : Scan) :
    Act → Option Scan
  | .readdir size =>
    if s.done then none
    else
      (YfsClient.getDirContent s.server ino).bind fun r =>
        if ∀ e ∈ r.2, lib.direntSize (shown e).1.length ≤ size.toNat then
          match fuseserverReaddir lib s.server ino size (Int64.ofNat s.off) with
          | some [.buf bytes] => some (s.receive parse bytes)
          | _ => none
        else none
  | .create c => (createStep ino s.server c).map fun t => { s with server := t }

end Scan

/-- The entries as they are shown. -/
def shownEntries (es : List DirEntry) : List (List UInt8 × UInt64) :=
  es.map fun e => shown e.pair

/-- At the end of the scan, each of the entries has been received once. -/
def Scanned (es : List DirEntry) (s : Scan) : Prop :=
  s.done = true →
    (s.received.filter fun e => decide (e ∈ shownEntries es)).Perm (shownEntries es)

/-- The scan ends, with no more calls than there are entries, and one. -/
def ScanEnds (es : List DirEntry) (s : Scan) : Prop :=
  s.calls ≤ es.length + 1 ∧ (s.calls = es.length + 1 → s.done = true)

/-- Nothing is created in the directory before the scan is done. -/
def CreatesLater (s : Scan) : Scan.Act → Prop
  | .create _ => s.done = true
  | .readdir _ => True

/-! ## Sizes -/

theorem length_cString_le (buf : List UInt8) : (cString buf).length ≤ buf.length :=
  (List.takeWhile_prefix _).length_le

/-- A name is not longer than the text of the directory. -/
theorem length_name_le {es : List DirEntry} {e : DirEntry} (he : e ∈ es) :
    e.name.length ≤ (terminated colon (fields es)).length := by
  induction es with
  | nil => exact absurd he List.not_mem_nil
  | cons d es ih =>
    have hcons : fields (d :: es) = d.name :: YfsClient.filename d.inum :: fields es := rfl
    rw [hcons, terminated_cons, terminated_cons]
    simp only [List.length_append, List.length_cons]
    obtain rfl | he := List.mem_cons.1 he
    · omega
    · have := ih he
      omega

theorem Decoded.length_terminated {ino : UInt64} {es : List DirEntry} {s : ExtentServer}
    (h : Decoded ino es s) : (terminated colon (fields es)).length ≤ maxextent + 1 := by
  by_cases hnil : es = []
  · rw [hnil]
    exact Nat.zero_le _
  · have := h.length_le
    rw [terminated_fields hnil, List.length_append, List.length_singleton]
    omega

section

variable {lib : LibFuse} {parse : List UInt8 → List Dirent} (h : DirentLayout lib parse)

include h

/-- The buffer is little longer than the text of the directory. -/
theorem direntsSize_shownEntries_le (es : List DirEntry) :
    direntsSize lib (shownEntries es) ≤ 16 * (terminated colon (fields es)).length := by
  induction es with
  | nil => exact Nat.zero_le _
  | cons e es ih =>
    have hcons : fields (e :: es) = e.name :: YfsClient.filename e.inum :: fields es := rfl
    have hsize := h.size_le (cString e.name).length
    have hname := length_cString_le e.name
    show direntsSize lib (shown e.pair :: shownEntries es) ≤ _
    rw [direntsSize_cons, hcons, terminated_cons, terminated_cons]
    simp only [List.length_append, List.length_cons]
    show lib.direntSize (cString e.name).length + _ ≤ _
    omega

omit h in
theorem direntsSize_reverse (es : List (List UInt8 × UInt64)) :
    direntsSize lib es.reverse = direntsSize lib es := by
  unfold direntsSize
  rw [List.map_reverse, List.sum_reverse]

/-- Entries take up room. -/
theorem direntsSize_pos {es : List (List UInt8 × UInt64)} (hne : es ≠ []) :
    0 < direntsSize lib es := by
  obtain ⟨e, es, rfl⟩ := List.exists_cons_of_ne_nil hne
  have := h.size_pos e.1.length
  rw [direntsSize_cons]
  omega

end

/-! ## The invariant -/

/-- The entries in the order in which they are laid out. -/
def paged (es : List DirEntry) : List (List UInt8 × UInt64) := (shownEntries es).reverse

/-- The invariant: the first `k` of the entries have been received, one at
least by each call; the scan is done only after the last. -/
structure Paged (lib : LibFuse) (ino : UInt64) (es : List DirEntry) (s : Scan) (k : ℕ) : Prop where
  le : k ≤ es.length
  received : s.received = (paged es).take k
  off : s.off = direntsSize lib ((paged es).take k)
  going : s.done = false → Decoded ino es s.server ∧ s.calls ≤ k
  done : s.done = true → k = es.length ∧ s.calls ≤ es.length + 1

section

variable {lib : LibFuse} {parse : List UInt8 → List Dirent} {ino : UInt64} {es : List DirEntry}
variable {s s' : Scan} {k : ℕ}

theorem length_paged (es : List DirEntry) : (paged es).length = es.length := by
  unfold paged shownEntries
  rw [List.length_reverse, List.length_map]

theorem paged_start {t : ExtentServer} (h : Decoded ino es t) :
    Paged lib ino es (.start t) 0 where
  le := Nat.zero_le _
  received := by rw [List.take_zero]; rfl
  off := by rw [List.take_zero]; rfl
  going _ := ⟨h, Nat.le_refl 0⟩
  done hdone := absurd hdone Bool.false_ne_true

/-- The buffer of a directory, and what is replied of it. -/
theorem fuseserverReaddir_eq {t : ExtentServer} (h : Decoded ino es t) (size : UInt64)
    (off : Int64) :
    fuseserverReaddir lib t ino size off =
      some [replyBufLimited ⟨layout lib 0 (paged es), direntsSize lib (paged es)⟩ off size] := by
  have hpaged : (es.map DirEntry.pair).reverse.map shown = paged es := by
    unfold paged shownEntries
    rw [List.map_reverse, List.map_map]
    rfl
  unfold fuseserverReaddir
  rw [if_neg (not_not.2 h.isdir), h.listed, Option.map_some]
  dsimp only
  rw [if_neg (not_not.2 rfl), foldl_dirbufAdd, hpaged, List.nil_append, Nat.zero_add]

/-- The offsets are small enough for an `off_t`. -/
theorem direntsSize_paged_lt (hlib : DirentLayout lib parse) {t : ExtentServer}
    (h : Decoded ino es t) : direntsSize lib (paged es) < 2 ^ 63 := by
  have hle := direntsSize_shownEntries_le hlib es
  have hlen := h.length_terminated
  unfold paged
  rw [direntsSize_reverse]
  unfold maxextent at hlen
  omega

theorem length_shown_lt {t : ExtentServer} (h : Decoded ino es t) {e : List UInt8 × UInt64}
    (he : e ∈ shownEntries es) : e.1.length < 2 ^ 32 := by
  obtain ⟨d, hd, rfl⟩ := List.mem_map.1 he
  have hcut := length_cString_le d.name
  have hname := length_name_le hd
  have hlen := h.length_terminated
  show (cString d.name).length < 2 ^ 32
  unfold maxextent at hlen
  omega

theorem toNat_ofNat_off {off : ℕ} (h : off < 2 ^ 63) : (Int64.ofNat off).toUInt64.toNat = off := by
  rw [Int64.toUInt64_ofNat']
  exact UInt64.toNat_ofNat_of_lt' (by change off < 2 ^ 64; omega)

/-- A page with the next `j` entries. -/
theorem Paged.advance (h : Paged lib ino es s k) (hgo : s.done = false) {bytes : List UInt8} {j : ℕ}
    (hj : j ≤ ((paged es).drop k).length) (hpos : 0 < j) (hne : bytes ≠ [])
    (hparse : parse bytes = records lib s.off (((paged es).drop k).take j)) :
    Paged lib ino es (s.receive parse bytes) (k + j) := by
  have hle := h.le
  obtain ⟨hdec, hcalls⟩ := h.going hgo
  have hdone : (s.receive parse bytes).done = false := by
    show bytes.isEmpty = false
    rwa [List.isEmpty_eq_false_iff]
  have htake : (paged es).take (k + j) = (paged es).take k ++ ((paged es).drop k).take j :=
    List.take_add
  have hnext : ((paged es).drop k).take j ≠ [] := by
    rw [← List.length_pos_iff, List.length_take]
    omega
  rw [List.length_drop, length_paged] at hj
  refine ⟨by omega, ?_, ?_, fun _ => ⟨hdec, ?_⟩, fun hyes => ?_⟩
  · show s.received ++ (parse bytes).map Dirent.entry = _
    rw [hparse, records_entry, htake, h.received]
  · show ((parse bytes).getLast?.map Dirent.off).getD s.off = _
    rw [hparse, getLast?_records _ hnext, Option.getD_some, htake, direntsSize_append, h.off]
  · show s.calls + 1 ≤ k + j
    omega
  · rw [hdone] at hyes
    exact absurd hyes Bool.false_ne_true

/-- The empty page, after all entries. -/
theorem Paged.receive_nil (hlib : DirentLayout lib parse) (h : Paged lib ino es s k)
    (hgo : s.done = false) (hnil : (paged es).drop k = []) :
    Paged lib ino es (s.receive parse []) k := by
  obtain ⟨-, hcalls⟩ := h.going hgo
  have hk : k = es.length := by
    have hle := List.drop_eq_nil_iff.1 hnil
    rw [length_paged] at hle
    exact Nat.le_antisymm h.le hle
  refine ⟨h.le, ?_, ?_, fun hno => absurd hno.symm Bool.false_ne_true, fun _ => ⟨hk, ?_⟩⟩
  · show s.received ++ (parse []).map Dirent.entry = _
    rw [parse_nil hlib, List.map_nil, List.append_nil, h.received]
  · show ((parse []).getLast?.map Dirent.off).getD s.off = _
    rw [parse_nil hlib]
    exact h.off
  · show s.calls + 1 ≤ _
    omega

/-- A page that begins after the first `k` entries. -/
theorem Paged.receive (hlib : DirentLayout lib parse) (h : Paged lib ino es s k)
    (hgo : s.done = false) {size : UInt64}
    (hsize : ∀ e ∈ shownEntries es, lib.direntSize e.1.length ≤ size.toNat)
    {bytes : List UInt8}
    (hbytes : replyBufLimited ⟨layout lib 0 (paged es), direntsSize lib (paged es)⟩
      (Int64.ofNat s.off) size = .buf bytes) :
    ∃ k', Paged lib ino es (s.receive parse bytes) k' := by
  obtain ⟨hdec, -⟩ := h.going hgo
  have hlt := direntsSize_paged_lt hlib hdec
  have hsplit : (paged es).take k ++ (paged es).drop k = paged es := List.take_append_drop ..
  have hsum : direntsSize lib (paged es) = s.off + direntsSize lib ((paged es).drop k) := by
    rw [h.off, ← direntsSize_append, hsplit]
  unfold replyBufLimited at hbytes
  dsimp only at hbytes
  rw [toNat_ofNat_off (by omega)] at hbytes
  split at hbytes
  · -- there are more entries, and the page has one of them at least
    rename_i hmore
    obtain rfl := FuseReply.buf.inj hbytes
    have hne : (paged es).drop k ≠ [] := by
      intro hnil
      rw [hnil] at hsum
      exact absurd (hsum ▸ hmore) (Nat.lt_irrefl _)
    have hpage : (layout lib 0 (paged es)).drop s.off = layout lib s.off ((paged es).drop k) := by
      have hdrop := drop_layout hlib 0 ((paged es).take k) ((paged es).drop k)
      rwa [hsplit, ← h.off, Nat.zero_add] at hdrop
    have hmem : ∀ e ∈ (paged es).drop k, e ∈ shownEntries es :=
      fun e he => List.mem_reverse.1 (List.mem_of_mem_drop he)
    have hroom : ∀ e ∈ ((paged es).drop k).head?,
        lib.direntSize e.1.length ≤ min (direntsSize lib (paged es) - s.off) size.toNat := by
      intro e he
      obtain ⟨rest, hrest⟩ := List.head?_eq_some_iff.1 he
      rw [hrest, direntsSize_cons] at hsum
      have := hsize e (hmem e (hrest ▸ List.mem_cons_self))
      omega
    obtain ⟨j, hj, hparse, hpos⟩ := parse_take_layout hlib
      (min (direntsSize lib (paged es) - s.off) size.toNat) s.off _
      (fun e he => length_shown_lt hdec (hmem e he)) (by omega)
    have hpos := hpos hroom hne
    rw [hpage]
    refine ⟨k + j, h.advance hgo hj hpos ?_ hparse⟩
    -- a page with an entry in it is not empty
    intro hempty
    rw [hempty, parse_nil hlib] at hparse
    have hlen := congrArg (fun ds => (ds.map Dirent.entry).length) hparse
    rw [records_entry, List.length_take] at hlen
    simp only [List.map_nil, List.length_nil] at hlen
    omega
  · -- the end
    rename_i hend
    obtain rfl := FuseReply.buf.inj hbytes
    have hnil : (paged es).drop k = [] := by
      by_contra hne
      have := direntsSize_pos hlib hne
      omega
    exact ⟨k, h.receive_nil hlib hgo hnil⟩

theorem Paged.scanned (h : Paged lib ino es s k) : Scanned es s := by
  intro hdone
  have hall : s.received = paged es := by
    rw [h.received, (h.done hdone).1, ← length_paged es, List.take_length]
  have hfilter : s.received.filter (fun e => decide (e ∈ shownEntries es)) = s.received := by
    rw [List.filter_eq_self]
    intro e he
    rw [hall] at he
    exact decide_eq_true (List.mem_reverse.1 he)
  rw [hfilter, hall]
  exact List.reverse_perm _

theorem Paged.scanEnds (h : Paged lib ino es s k) : ScanEnds es s := by
  have hle := h.le
  rcases hdone : s.done with _ | _
  · have hcalls := (h.going hdone).2
    exact ⟨by omega, fun heq => by omega⟩
  · exact ⟨(h.done hdone).2, fun _ => hdone⟩

/-- **One step** keeps the invariant, unless something is created too
early. -/
theorem Paged.step (hlib : DirentLayout lib parse) {a : Scan.Act}
    (h : ∃ k, Paged lib ino es s k) (hlater : CreatesLater s a)
    (hs : s.step lib parse ino a = some s') : ∃ k, Paged lib ino es s' k := by
  obtain ⟨k, h⟩ := h
  rcases a with size | c
  · unfold Scan.step at hs
    rw [Option.ite_none_left_eq_some] at hs
    obtain ⟨hgo, hs⟩ := hs
    have hgo := Bool.eq_false_of_not_eq_true hgo
    have hdec := (h.going hgo).1
    rw [hdec.listed, Option.bind_some, Option.ite_none_right_eq_some,
      fuseserverReaddir_eq hdec] at hs
    obtain ⟨hsize, hs⟩ := hs
    split at hs
    · rename_i bytes hreply
      obtain rfl := Option.some.inj hs
      refine h.receive hlib hgo (fun e he => ?_) (List.singleton_inj.1 (Option.some.inj hreply))
      obtain ⟨d, hd, rfl⟩ := List.mem_map.1 he
      exact hsize d.pair (List.mem_map_of_mem hd)
    · exact absurd hs.symm (Option.some_ne_none s')
  · obtain ⟨t, -, rfl⟩ := Option.map_eq_some_iff.1 hs
    have hdone : s.done = true := hlater
    refine ⟨k, h.le, h.received, h.off, fun hgo => ?_, h.done⟩
    have hgo : s.done = false := hgo
    rw [hdone] at hgo
    exact Bool.noConfusion hgo

end

/-- **A scan is complete and has no duplicates, where nothing is created
before it is done.** For every directory that is decoded, pages of any
sizes with room for the largest entry, and every run of calls, each from
the offset in the last entry received, as long as nothing is created in
the directory before the empty reply: at the end each entry has been
received once, and the end comes after at most one call more than there
are entries. -/
theorem scanned_of_createsLater {lib : LibFuse} {parse : List UInt8 → List Dirent}
    (hlib : DirentLayout lib parse) {ino : UInt64} {es : List DirEntry} {t : ExtentServer}
    (ht : Decoded ino es t) {acts : List Scan.Act}
    (hlater : Steps (Scan.step lib parse ino) CreatesLater (.start t) acts) :
    Along (Scan.step lib parse ino) (fun s => Scanned es s ∧ ScanEnds es s) (.start t) acts := by
  refine along_of_steps (fun _ _ _ h hl hs => Paged.step hlib h hl hs) (fun s h => ?_)
    ⟨0, paged_start ht⟩ hlater
  obtain ⟨k, h⟩ := h
  exact ⟨h.scanned, h.scanEnds⟩

/-! ## Two files -/

/-- A directory in which entries were created is decoded, where the last
id fits. -/
theorem decoded_of_creates {ino : UInt64} {s t : ExtentServer} {cs : List Creation}
    (hdir : YfsClient.isdir ino = true) (h0 : EmptyDir ino s)
    (hname : ∀ c ∈ cs, c.name ≠ [] ∧ colon ∉ c.name)
    (hexec : exec (createStep ino) s cs = some t)
    (hfits : LastIdFits (cs.map Creation.toDirEntry)) :
    Decoded ino (cs.map Creation.toDirEntry) t where
  isdir := hdir
  get := (get_of_creates h0 hexec).1
  length_le := (get_of_creates h0 hexec).2
  noColon := List.forall_mem_map.2 fun c hc => (hname c hc).2
  listed := by
    rw [(listed_iff h0 hname hexec).2 hfits, List.map_map]
    rfl

/-- A third file. -/
def thirdFile : Creation := ⟨⟨[99], 2147483655⟩, 5, 6⟩

theorem decoded_twoFiles : ∃ t, exec (createStep 1) (.new 0) twoFiles = some t ∧
    Decoded 1 (twoFiles.map Creation.toDirEntry) t := by
  have h0 : EmptyDir 1 (.new 0) := rfl
  exact ⟨_, rfl, decoded_of_creates rfl h0 (by decide) rfl (by decide)⟩

theorem decoded_threeFiles : ∃ t, exec (createStep 1) (.new 0) (twoFiles ++ [thirdFile]) = some t ∧
    Decoded 1 ((twoFiles ++ [thirdFile]).map Creation.toDirEntry) t := by
  have h0 : EmptyDir 1 (.new 0) := rfl
  exact ⟨_, rfl, decoded_of_creates rfl h0 (by decide) rfl (by decide)⟩

/-- The two files are read one by one. -/
theorem scanned_twoFiles : ∃ t, exec (createStep 1) (.new 0) twoFiles = some t ∧
    Along (Scan.step fuseDirents parseDirents 1)
      (fun s => Scanned (twoFiles.map Creation.toDirEntry) s ∧
        ScanEnds (twoFiles.map Creation.toDirEntry) s)
      (.start t) [.readdir 32, .readdir 32, .readdir 32] := by
  obtain ⟨t, ht, hdec⟩ := decoded_twoFiles
  refine ⟨t, ht, scanned_of_createsLater direntLayout_fuseDirents hdec ?_⟩
  exact ⟨trivial, fun _ _ => ⟨trivial, fun _ _ => ⟨trivial, fun _ _ => trivial⟩⟩⟩

/-- The third file is created after the first page. -/
def createdBetween : List Scan.Act :=
  [.readdir 32, .create thirdFile, .readdir 32, .readdir 32, .readdir 32]

/-- The second file is received twice, though the directory is decoded
with two files and with three. -/
theorem not_scanned_createdBetween :
    (∃ t, exec (createStep 1) (.new 0) (twoFiles ++ [thirdFile]) = some t ∧
      Decoded 1 ((twoFiles ++ [thirdFile]).map Creation.toDirEntry) t) ∧
    ∃ t, exec (createStep 1) (.new 0) twoFiles = some t ∧
      Decoded 1 (twoFiles.map Creation.toDirEntry) t ∧
      ¬ Along (Scan.step fuseDirents parseDirents 1)
        (Scanned (twoFiles.map Creation.toDirEntry)) (.start t) createdBetween := by
  obtain ⟨t, ht, hdec⟩ := decoded_twoFiles
  refine ⟨decoded_threeFiles, t, ht, hdec, fun h => ?_⟩
  have hend : ((exec (createStep 1) (.new 0) twoFiles).bind fun t =>
      (exec (Scan.step fuseDirents parseDirents 1) (.start t) createdBetween).map fun s =>
        (s.done, s.received)) =
      some (true, [([98], 2147483654), ([98], 2147483654), ([97], 2147483653)]) := by
    decide +kernel
  rw [ht, Option.bind_some] at hend
  obtain ⟨s, hs, hfin⟩ := Option.map_eq_some_iff.1 hend
  obtain ⟨hdone, hreceived⟩ := Prod.mk.inj hfin
  have hperm := h.last hs hdone
  rw [hreceived] at hperm
  exact absurd hperm.length_eq (by decide)

end Yfs
