import Xv6.Sys.TagRead

/-!
# `Sys.TagQuery` — what `getFilesByTag` answers

The call walks over the root directory and looks at the tag block of every file it meets, and it appends the names
that match to the caller's buffer. The walk does not touch user memory and the appending touches nothing else, so a
call is the two one after the other: the walk of the root directory (`tagScan`) finds the candidates, a name and a
tag block each, and `answer` is what comes of them for a query and a memory.
-/

namespace Xv6

open Bytes Hoare Machine

/-! ## User memory apart from the rest -/

/-- User memory and the log of its use. -/
structure User where
  mem : Arr
  acc : List Access

def Fs.user (s : Fs) : User := ⟨s.mem, s.acc⟩

def Fs.withUser (s : Fs) (u : User) : Fs := { s with mem := u.mem, acc := u.acc }

@[simp] theorem withUser_user (s : Fs) : s.withUser s.user = s := rfl

@[simp] theorem user_withUser (s : Fs) (u : User) : (s.withUser u).user = u := rfl

@[simp] theorem withUser_withUser (s : Fs) (u v : User) : (s.withUser u).withUser v = s.withUser v := rfl

/-- A program that does not look at user memory. -/
def MemFree {α : Type} (m : FsM α) : Prop := ∀ u, Commutes (fun s : Fs => s.withUser u) m

section MemFree

variable {α β : Type} {dev b : Nat} {ip : Slot}

theorem MemFree.bind {m : FsM α} {f : α → FsM β} (hm : MemFree m) (hf : ∀ a, MemFree (f a)) : MemFree (m >>= f) :=
  fun u => (hm u).bind fun a => hf a u

theorem MemFree.ite {c : Prop} [Decidable c] {m n : FsM α} (hm : MemFree m) (hn : MemFree n) :
    MemFree (if c then m else n) := fun u => (hm u).ite (hn u)

theorem MemFree.user {m : FsM α} {s : Fs} (hm : MemFree m) : (exec m s).2.user = s.user := by
  simpa using congrArg (fun out => out.2.user) (hm s.user s)

theorem pure_memFree (a : α) : MemFree (pure a) := fun _ => .pure a

theorem panic_memFree (msg : String) : MemFree (panic msg : FsM α) := fun _ => .throw _

theorem bread_memFree : MemFree (bread dev b) := fun _ _ => rfl

theorem bwrite_memFree {d : Arr} : MemFree (bwrite dev b d) := fun _ _ => rfl

theorem inode_memFree : MemFree (inode ip) := fun _ _ => rfl

theorem modInode_memFree {f : Inode → Inode} : MemFree (modInode ip f) := fun _ _ => rfl

/-- **`iget`**, from any state. -/
theorem exec_iget {inum : Nat} (s : Fs) : exec (iget dev inum) s =
    (s.cached dev inum).elim
      (s.emptySlot.elim (.error (.panic "iget: no inodes"), s) fun ip =>
        (.ok ip, s.setInode ip { s.icache ip with dev, inum, ref := 1, busy := false, valid := false }))
      fun ip => (.ok ip, s.setInode ip { s.icache ip with ref := (s.icache ip).ref + 1 }) := by
  have hget : exec (get : FsM Fs) s = (.ok s, s) := rfl
  rw [iget, exec_bind, hget]
  dsimp only
  cases s.cached dev inum with
  | some ip => rfl
  | none =>
    cases s.emptySlot with
    | some ip => rfl
    | none => rfl

theorem iget_memFree {inum : Nat} : MemFree (iget dev inum) := by
  intro u s
  have hc : (s.withUser u).cached dev inum = s.cached dev inum := rfl
  have he : (s.withUser u).emptySlot = s.emptySlot := rfl
  rw [exec_iget, exec_iget, hc, he]
  rcases s.cached dev inum with _ | ip
  · rcases s.emptySlot with _ | ip <;> rfl
  · rfl

theorem ballocFrom_memFree {sb : Superblock} (k : Nat) : ∀ b, MemFree (ballocFrom dev sb k b) := by
  induction k with
  | zero => exact fun _ => panic_memFree _
  | succ k ih =>
    intro b
    unfold ballocFrom
    refine bread_memFree.bind fun bp => ?_
    split
    · exact bwrite_memFree.bind fun _ => pure_memFree _
    · exact ih _

theorem balloc_memFree : MemFree (balloc dev) :=
  (bread_memFree.bind fun _ => pure_memFree _).bind fun sb => ballocFrom_memFree sb.bitblocks 0

theorem addrAlloc_memFree {k : Nat} : MemFree (addrAlloc ip k) :=
  inode_memFree.bind fun _ => .ite (balloc_memFree.bind fun _ => modInode_memFree.bind fun _ => pure_memFree _)
    (pure_memFree _)

theorem bmap_memFree {bn : Nat} : MemFree (bmap ip bn) := by
  unfold bmap
  refine .ite addrAlloc_memFree (.ite (addrAlloc_memFree.bind fun ind => inode_memFree.bind fun i =>
    bread_memFree.bind fun bp => ?_) (panic_memFree _))
  exact .ite (balloc_memFree.bind fun _ => bwrite_memFree.bind fun _ => pure_memFree _) (pure_memFree _)

end MemFree

/-! ## The walk -/

/-- A file met on the walk that has a tag block: where its name stands, and the block. -/
structure Candidate where
  name : Arr
  str : Arr

/-- The part of `tagEntry` before it looks at the query. -/
def probe (dev : Nat) (bp : Arr) (e : Nat) : FsM (Option Candidate) := do
  if direntInum bp (16 * e) = 0 then return none
  else
    let each ← iget dev (direntInum bp (16 * e))
    let i ← inode each
    if i.tags = 0 then return none
    else
      let str ← bread dev i.tags
      return some ⟨fun j => bp (16 * e + 2 + j), str⟩

/-- The block of the root directory at `off`, and its device. -/
def rootBlock (root : Slot) (off : Nat) : FsM (Nat × Arr) := do
  let addr ← bmap root (off / BSIZE)
  let i ← inode root
  let bp ← bread i.dev addr
  return (i.dev, bp)

/-- The candidates among the entries of a block, and the state after them or why the walk stopped. -/
def scanEntries (dev : Nat) (bp : Arr) : List Nat → Fs → List Candidate × Except Stop Fs
  | [], s => ([], .ok s)
  | e :: es, s =>
    match exec (probe dev bp e) s with
    | (.error stop, _) => ([], .error stop)
    | (.ok c, s1) => (c.toList ++ (scanEntries dev bp es s1).1, (scanEntries dev bp es s1).2)

/-- The candidates in the blocks still to scan. -/
def scanBlocks (root : Slot) : Nat → Nat → Fs → List Candidate × Except Stop Fs
  | 0, _, s => ([], .ok s)
  | k + 1, off, s =>
    match exec (rootBlock root off) s with
    | (.error stop, _) => ([], .error stop)
    | (.ok (dev, bp), s1) =>
      match scanEntries dev bp (List.range 32) s1 with
      | (cs, .error stop) => (cs, .error stop)
      | (cs, .ok s2) => (cs ++ (scanBlocks root k (off + BSIZE) s2).1, (scanBlocks root k (off + BSIZE) s2).2)

/-- **The walk** over the root directory, as it is in the cache. -/
def tagScan (s : Fs) : List Candidate × Except Stop Fs :=
  match exec (iget ROOTDEV ROOTINO) s with
  | (.error stop, _) => ([], .error stop)
  | (.ok root, s1) => scanBlocks root (((s1.icache root).size + BSIZE - 1) / BSIZE) 0 s1

theorem probe_memFree {dev : Nat} {bp : Arr} {e : Nat} : MemFree (probe dev bp e) :=
  .ite (pure_memFree _) (iget_memFree.bind fun _ => inode_memFree.bind fun _ =>
    .ite (pure_memFree _) (bread_memFree.bind fun _ => pure_memFree _))

theorem rootBlock_memFree {root : Slot} {off : Nat} : MemFree (rootBlock root off) :=
  bmap_memFree.bind fun _ => inode_memFree.bind fun _ => bread_memFree.bind fun _ => pure_memFree _

/-! ## The answer -/

/-- The reads of `resultsEnd`. -/
def endReads (results : Nat) (mem : Arr) : Nat → List Access
  | 0 => []
  | n + 1 => ⟨false, results + n⟩ :: if mem (results + n) ≠ 0 then [] else endReads results mem n

/-- Where the next name goes: after the last byte that is not zero, and one further. -/
def appendAt (results : Nat) (L : Int) (mem : Arr) : Nat :=
  let k := valueLen (fun j => mem (results + j)) L.toNat
  if k ≠ 0 then k + 1 else k

/-- What `appendName` does to user memory. -/
def User.append (results : Nat) (L : Int) (name : Arr) (u : User) : Bool × User :=
  let k := appendAt results L u.mem
  let acc := u.acc ++ endReads results u.mem L.toNat
  if (strlen name : Int) ≤ L - k then
    (true,
      { mem := blit (blit u.mem (results + k) (strlen name + 1) name) (results + k + strlen name) 1 fun _ => 0
        acc := acc ++ touch true (results + k) (strlen name + 1) ++ touch true (results + k + strlen name) 1 })
  else (false, ⟨u.mem, acc⟩)

/-- A query: the arguments of `getFilesByTag`. -/
structure Query where
  key : Nat
  value : Nat
  valueLength : Int
  results : Nat
  resultsLength : Int

/-- Whether a candidate matches, with the key and the value as they stand in memory. -/
def Query.hits (q : Query) (mem : Arr) (c : Candidate) : Bool :=
  tagMatches c.str (fun j => mem (q.key + j)) (fun j => mem (q.value + j)) q.valueLength

/-- **The answer** to a query: the names that match go to the buffer one after the other, and the call ends with -1
    (`none`) at the first that has no room. -/
def answer (q : Query) : List Candidate → Nat → User → Option Nat × User
  | [], count, u => (some count, u)
  | c :: cs, count, u =>
    if q.hits u.mem c then
      match u.append q.results q.resultsLength c.name with
      | (true, u') => answer q cs (count + 1) u'
      | (false, u') => (none, u')
    else answer q cs count u

/-- Candidates are answered in order. -/
theorem answer_append {q : Query} (cs cs' : List Candidate) : ∀ (count : Nat) (u : User),
    answer q (cs ++ cs') count u =
      match answer q cs count u with
      | (some count', u') => answer q cs' count' u'
      | (none, u') => (none, u') := by
  induction cs with
  | nil => exact fun _ _ => rfl
  | cons c cs ih =>
    intro count u
    rw [List.cons_append, answer, answer]
    split
    · split
      · exact ih _ _
      · rfl
    · exact ih _ _

section Answer

variable {q : Query} {s : Fs} {u : User} {dev : Nat} {bp : Arr}

theorem resultsEnd_exec {results : Nat} (n : Nat) : ∀ s : Fs, exec (resultsEnd results n) s =
    (.ok (valueLen (fun j => s.mem (results + j)) n), { s with acc := s.acc ++ endReads results s.mem n }) := by
  induction n with
  | zero => intro s; rw [endReads, List.append_nil]; rfl
  | succ n ih =>
    intro s
    rw [resultsEnd, exec_bind]
    show exec (if s.mem (results + n + 0) ≠ 0 then _ else _) _ = _
    rw [valueLen, endReads, Nat.add_zero]
    split
    · rfl
    · rw [ih]
      simp only [touch, List.append_assoc]
      rfl

/-- **`appendName`** touches user memory only. -/
theorem appendName_exec {results : Nat} {L : Int} {name : Arr} (s : Fs) :
    exec (appendName results L name) s =
      (.ok (s.user.append results L name).1, s.withUser (s.user.append results L name).2) := by
  rw [appendName, exec_bind, resultsEnd_exec]
  show exec (if (strlen name : Int) ≤ L - (appendAt results L s.mem : Nat) then _ else _) _ = _
  by_cases h : (strlen name : Int) ≤ L - (appendAt results L s.mem : Nat)
  · rw [if_pos h, show s.user.append results L name = (true, _) from if_pos h]
    simp only [Fs.withUser, Fs.user]
    rfl
  · rw [if_neg h, show s.user.append results L name = (false, _) from if_neg h]
    rfl

/-- **One entry**: the probe, then the query. -/
theorem wp_tagEntry {e count : Nat} {Q : Option Nat → Fs → Prop} {E : Stop → Fs → Prop} :
    wp (tagEntry dev bp q.key q.value q.valueLength q.results q.resultsLength e count) Q E (s.withUser u) ↔
      wp (probe dev bp e) (fun c s1 =>
          Q (answer q c.toList count u).1 (s1.withUser (answer q c.toList count u).2))
        (fun stop s1 => E stop (s1.withUser u)) s := by
  unfold tagEntry probe
  by_cases h0 : direntInum bp (16 * e) = 0
  · rw [if_pos h0, if_pos h0]
    rfl
  · rw [if_neg h0, if_neg h0, wp_bind, wp_bind, (iget_memFree u).wp_iff]
    refine wp_congr fun each s1 => ?_
    rw [wp_bind, wp_bind, wp_inode, wp_inode, show (s1.withUser u).icache = s1.icache from rfl]
    by_cases ht : (s1.icache each).tags = 0
    · rw [if_pos ht, if_pos ht]
      rfl
    rw [if_neg ht, if_neg ht]
    simp only [wp_bind, wp_bread, userStr, wp_get, wp_pure, Option.toList_some, answer]
    show wp (if q.hits u.mem ⟨fun j => bp (16 * e + 2 + j), s1.disk dev (s1.icache each).tags⟩ then _ else _) _ _ _ ↔ _
    split
    · rw [wp_bind, wp, appendName_exec]
      rcases ha : (s1.withUser u).user.append q.results q.resultsLength _ with ⟨_ | _, u'⟩ <;>
        simp only [user_withUser] at ha <;> simp [ha]
    · rfl

/-- **The entries of a block**: the walk over them, then the answer to its candidates. -/
theorem tagEntries_answer (es : List Nat) : ∀ (count : Nat) (u : User) (s : Fs),
    wp (tagEntries dev bp q.key q.value q.valueLength q.results q.resultsLength es count)
      (fun r s' => (answer q (scanEntries dev bp es s).1 count u).1 = r ∧
        (answer q (scanEntries dev bp es s).1 count u).2 = s'.user ∧
        (r ≠ none → ∃ s1, (scanEntries dev bp es s).2 = .ok s1 ∧ s' = s1.withUser s'.user))
      (fun stop _ => (scanEntries dev bp es s).2 = .error stop ∧ (answer q (scanEntries dev bp es s).1 count u).1 ≠ none)
      (s.withUser u) := by
  induction es with
  | nil => exact fun count u s => ⟨rfl, rfl, fun _ => ⟨s, rfl, rfl⟩⟩
  | cons e es ih =>
    intro count u s
    rw [tagEntries, wp_bind, wp_tagEntry, wp, scanEntries]
    rcases exec (probe dev bp e) s with ⟨stop | c, s1⟩
    · exact ⟨rfl, Option.some_ne_none _⟩
    · dsimp only
      rw [answer_append]
      rcases answer q c.toList count u with ⟨_ | count', u'⟩
      · exact ⟨rfl, rfl, fun h => absurd rfl h⟩
      · exact ih count' u' s1

/-- How a call ends that has the answer `a` to a walk that ended in `out`. -/
def Answered (a : Option Nat × User) (out : Except Stop Fs) (r : Int) (s' : Fs) : Prop :=
  a.2 = s'.user ∧
    match a.1 with
    | none => r = -1
    | some count => r = count ∧ ∃ s1, out = .ok s1 ∧ s' = s1.withUser s'.user

/-- One block: `rootBlock`, then its entries. -/
theorem wp_tagBlocks_succ {root : Slot} {k off count : Nat} {Q : Int → Fs → Prop} {E : Stop → Fs → Prop} :
    wp (tagBlocks root q.key q.value q.valueLength q.results q.resultsLength (k + 1) off count) Q E (s.withUser u) ↔
      wp (rootBlock root off) (fun p s1 =>
          wp (tagEntries p.1 p.2 q.key q.value q.valueLength q.results q.resultsLength (List.range 32) count)
            (fun r s2 => wp (match r with
              | none => pure (-1)
              | some count =>
                tagBlocks root q.key q.value q.valueLength q.results q.resultsLength k (off + BSIZE) count) Q E s2)
            E (s1.withUser u))
        (fun e s1 => E e (s1.withUser u)) s := by
  rw [← (rootBlock_memFree u).wp_iff]
  simp only [tagBlocks, rootBlock, wp_bind, wp_inode, wp_bread]
  exact Iff.rfl

/-- **The blocks still to scan**: the walk over them, then the answer to its candidates. -/
theorem tagBlocks_answer (root : Slot) (k : Nat) : ∀ (off count : Nat) (u : User) (s : Fs),
    wp (tagBlocks root q.key q.value q.valueLength q.results q.resultsLength k off count)
      (Answered (answer q (scanBlocks root k off s).1 count u) (scanBlocks root k off s).2)
      (fun stop _ => (scanBlocks root k off s).2 = .error stop ∧ (answer q (scanBlocks root k off s).1 count u).1 ≠ none)
      (s.withUser u) := by
  induction k with
  | zero => exact fun off count u s => ⟨rfl, rfl, s, rfl, rfl⟩
  | succ k ih =>
    intro off count u s
    rw [wp_tagBlocks_succ, scanBlocks, wp]
    rcases exec (rootBlock root off) s with ⟨stop | ⟨dev, bp⟩, s1⟩
    · exact ⟨rfl, Option.some_ne_none _⟩
    have hes := @tagEntries_answer q dev bp (List.range 32) count u s1
    dsimp only
    rcases hscan : scanEntries dev bp (List.range 32) s1 with ⟨cs, stop | s2⟩ <;> rw [hscan] at hes
    · -- the walk stops in this block, unless the call has returned before
      refine wp_mono hes ?_ fun stop' _ h => h
      rintro (_ | count') s3 ⟨hr, hu, hout⟩
      · rw [wp_pure, Answered, hr]
        exact ⟨hu, rfl⟩
      · obtain ⟨s4, hs4, -⟩ := hout (by simp)
        cases hs4
    · dsimp only
      rw [answer_append]
      refine wp_mono hes ?_ fun stop' _ h => absurd h.1 (by simp)
      rintro r s3 ⟨hr, hu, hout⟩
      rcases ha : answer q cs count u with ⟨r', u'⟩
      rw [ha] at hr hu
      obtain rfl : r' = r := hr
      cases r' with
      | none => exact ⟨hu, rfl⟩
      | some count' =>
        obtain ⟨s4, hs4, hs3⟩ := hout (by simp)
        obtain rfl : s2 = s4 := by simpa using hs4
        obtain rfl : u' = s3.user := hu
        rw [hs3]
        exact ih (off + BSIZE) count' s3.user s2

/-- **A call of `getFilesByTag`** is the walk over the root directory and the answer to its candidates. -/
theorem getFilesByTag_answer (q : Query) (s : Fs) :
    wp (getFilesByTag q.key q.value q.valueLength q.results q.resultsLength)
      (Answered (answer q (tagScan s).1 0 s.user) (tagScan s).2)
      (fun stop _ => (tagScan s).2 = .error stop ∧ (answer q (tagScan s).1 0 s.user).1 ≠ none) s := by
  unfold getFilesByTag tagScan
  rw [wp_bind, wp]
  rcases hget : exec (iget ROOTDEV ROOTINO) s with ⟨stop | root, s1⟩
  · exact ⟨rfl, Option.some_ne_none _⟩
  · have hu : s1.user = s.user := by rw [← iget_memFree.user (s := s), hget]
    have h := tagBlocks_answer (q := q) root (((s1.icache root).size + BSIZE - 1) / BSIZE) 0 0 s1.user s1
    rw [withUser_user, hu] at h
    exact h

/-- The walk does not depend on user memory. -/
theorem scanEntries_withUser (es : List Nat) : ∀ s : Fs, scanEntries dev bp es (s.withUser u) =
    ((scanEntries dev bp es s).1, (scanEntries dev bp es s).2.map fun s1 => s1.withUser u) := by
  induction es with
  | nil => exact fun _ => rfl
  | cons e es ih =>
    intro s
    rw [scanEntries, scanEntries, probe_memFree u s]
    rcases exec (probe dev bp e) s with ⟨stop | c, s1⟩
    · rfl
    · dsimp only
      rw [ih s1]

theorem scanBlocks_withUser {root : Slot} (k : Nat) : ∀ (off : Nat) (s : Fs), scanBlocks root k off (s.withUser u) =
    ((scanBlocks root k off s).1, (scanBlocks root k off s).2.map fun s1 => s1.withUser u) := by
  induction k with
  | zero => exact fun _ _ => rfl
  | succ k ih =>
    intro off s
    rw [scanBlocks, scanBlocks, rootBlock_memFree u s]
    rcases exec (rootBlock root off) s with ⟨stop | ⟨dev, bp⟩, s1⟩
    · rfl
    · dsimp only
      rw [scanEntries_withUser]
      rcases scanEntries dev bp (List.range 32) s1 with ⟨cs, stop | s2⟩
      · rfl
      · show (cs ++ _, _) = _
        rw [ih]

theorem tagScan_withUser : tagScan (s.withUser u) = ((tagScan s).1, (tagScan s).2.map fun s1 => s1.withUser u) := by
  rw [tagScan, tagScan, iget_memFree u s]
  rcases exec (iget ROOTDEV ROOTINO) s with ⟨stop | root, s1⟩
  · rfl
  · exact scanBlocks_withUser _ 0 s1

/-- `getFilesByTag` with the arguments of a query. -/
def Query.call (q : Query) : FsM Int := getFilesByTag q.key q.value q.valueLength q.results q.resultsLength

/-- **What a call returns.** -/
theorem call_fst : (exec q.call (s.withUser u)).1 =
    match (answer q (tagScan s).1 0 u).1 with
    | none => .ok (-1)
    | some count => (tagScan s).2.map fun _ => (count : Int) := by
  have h := getFilesByTag_answer q (s.withUser u)
  rw [tagScan_withUser, user_withUser, wp] at h
  rw [Query.call]
  rcases hexec : exec (getFilesByTag q.key q.value q.valueLength q.results q.resultsLength) (s.withUser u) with
    ⟨stop | r, s'⟩ <;> rw [hexec] at h
  · obtain ⟨hstop, hne⟩ := h
    obtain ⟨count, hc⟩ := Option.ne_none_iff_exists'.mp hne
    rw [hc]
    rcases hout : (tagScan s).2 with e | s1 <;> rw [hout] at hstop <;> cases hstop
    rfl
  · obtain ⟨-, h⟩ := h
    rcases ha : (answer q (tagScan s).1 0 u).1 with _ | count <;> rw [ha] at h
    · exact congrArg Except.ok h
    · obtain ⟨rfl, s1, hout, -⟩ := h
      rcases hout' : (tagScan s).2 with e | s2 <;> rw [hout'] at hout <;> cases hout
      rfl

end Answer

/-! ## References -/

/-- Every slot has at least the references of `c`. -/
def RefsAbove (c : Slot → Int) (s : Fs) : Prop := ∀ x, c x ≤ (s.icache x).ref

section References

variable {c : Slot → Int} {dev : Nat} {ip : Slot}

/-- A program that gives no reference back. -/
abbrev Borrows {α : Type} (m : FsM α) : Prop := ∀ c, Stable (RefsAbove c) (fun _ _ => True) m

theorem modInode_borrows {f : Inode → Inode} (hf : ∀ i, (f i).ref = i.ref) : Borrows (modInode ip f) := by
  intro c s h x
  rw [setInode_icache]
  by_cases hx : x = ip
  · subst hx
    rw [Function.update_self, hf]
    exact h x
  · rw [Function.update_of_ne hx]
    exact h x

theorem iget_borrows {inum : Nat} : Borrows (iget dev inum) := by
  intro c s h
  rw [wp, exec_iget]
  -- the slot found has one more, an empty one gets its first
  have hset : ∀ y i, (s.icache y).ref ≤ i.ref → RefsAbove c (s.setInode y i) := by
    intro y i hi x
    rw [setInode_icache]
    by_cases hx : x = y
    · subst hx
      rw [Function.update_self]
      exact Int.le_trans (h x) hi
    · rw [Function.update_of_ne hx]
      exact h x
  rcases s.cached dev inum with _ | y
  · rcases he : s.emptySlot with _ | y
    · trivial
    · have h0 : (s.icache y).ref = 0 := by simpa using List.find?_some he
      exact hset y _ (by rw [h0]; exact Int.one_nonneg)
  · exact hset y _ (by show _ ≤ _ + 1; omega)

theorem ballocFrom_borrows {sb : Superblock} (k : Nat) : ∀ b, Borrows (ballocFrom dev sb k b) := by
  induction k with
  | zero => exact fun _ _ => .throw fun _ _ => trivial
  | succ k ih =>
    intro b c
    unfold ballocFrom
    refine Stable.bind (fun _ h => h) fun bp => ?_
    split
    · exact Stable.bind (fun _ h => h) fun _ => .pure _
    · exact ih _ c

theorem balloc_borrows : Borrows (balloc dev) := fun c =>
  Stable.bind (.bind (fun _ h => h) fun _ => .pure _) fun sb => ballocFrom_borrows sb.bitblocks 0 c

theorem addrAlloc_borrows {k : Nat} : Borrows (addrAlloc ip k) := by
  intro c
  have hset : ∀ addr, Borrows (setAddr ip k addr) := fun addr => modInode_borrows fun _ => rfl
  exact .bind (fun _ h => h) fun _ => .ite (.bind (balloc_borrows c) fun _ => .bind (hset _ c) fun _ => .pure _) (.pure _)

theorem bmap_borrows {bn : Nat} : Borrows (bmap ip bn) := by
  intro c
  unfold bmap
  refine .ite (addrAlloc_borrows c) (.ite (.bind (addrAlloc_borrows c) fun ind => .bind (fun _ h => h) fun i =>
    .bind (fun _ h => h) fun bp => ?_) (.throw fun _ _ => trivial))
  exact .ite (.bind (balloc_borrows c) fun _ => .bind (fun _ h => h) fun _ => .pure _) (.pure _)

theorem appendName_borrows {results : Nat} {L : Int} {name : Arr} : Borrows (appendName results L name) := by
  intro c s h
  rw [wp, appendName_exec]
  exact h

variable {bp : Arr} {key value results : Nat} {n L : Int}

theorem tagEntry_borrows {e count : Nat} : Borrows (tagEntry dev bp key value n results L e count) := by
  intro c
  unfold tagEntry
  refine .ite (.pure _) (.bind (iget_borrows c) fun _ => .bind (fun _ h => h) fun _ => .ite (.pure _)
    (.bind (fun _ h => h) fun str => .bind (fun _ h => h) fun k => .bind (fun _ h => h) fun v => ?_))
  refine .ite (.bind (appendName_borrows c) fun ok => .ite (.pure _) (.pure _)) (.pure _)

theorem tagEntries_borrows (es : List Nat) : ∀ count, Borrows (tagEntries dev bp key value n results L es count) := by
  induction es with
  | nil => exact fun _ _ => .pure _
  | cons e es ih =>
    intro count c
    refine .bind (tagEntry_borrows c) fun r => ?_
    cases r with
    | none => exact .pure _
    | some count' => exact ih count' c

theorem tagBlocks_borrows {root : Slot} (k : Nat) : ∀ off count, Borrows (tagBlocks root key value n results L k off count) := by
  induction k with
  | zero => exact fun _ _ _ => .pure _
  | succ k ih =>
    intro off count c
    refine .bind (bmap_borrows c) fun addr => .bind (fun _ h => h) fun i => .bind (fun _ h => h) fun bp =>
      .bind (tagEntries_borrows _ _ c) fun r => ?_
    cases r with
    | none => exact .pure _
    | some count' => exact ih _ count' c

/-- The inodes that are cached. -/
def Fs.inUse (s : Fs) : Set (Nat × Nat) :=
  { p | ∃ x, 0 < (s.icache x).ref ∧ p = ((s.icache x).dev, (s.icache x).inum) }

/-- **References are never given back**: whenever `getFilesByTag` returns, some slot has more references than before
    (the root's). -/
theorem getFilesByTag_leaks (q : Query) {s s' : Fs} {r : Int}
    (hrun : exec (getFilesByTag q.key q.value q.valueLength q.results q.resultsLength) s = (.ok r, s')) :
    ¬ ((∀ x, (s'.icache x).ref = (s.icache x).ref) ∧ s'.inUse = s.inUse) := by
  rintro ⟨hsame, -⟩
  have hwp : wp (getFilesByTag q.key q.value q.valueLength q.results q.resultsLength)
      (fun _ s' => ∃ x, (s.icache x).ref < (s'.icache x).ref) (fun _ _ => True) s := by
    unfold getFilesByTag
    rw [wp_bind]
    have hroot : wp (iget ROOTDEV ROOTINO) (fun x s1 => (s.icache x).ref < (s1.icache x).ref) (fun _ _ => True) s := by
      rw [wp, exec_iget]
      rcases s.cached ROOTDEV ROOTINO with _ | y
      · rcases he : s.emptySlot with _ | y
        · trivial
        · have h0 : (s.icache y).ref = 0 := by simpa using List.find?_some he
          simp [h0]
      · simp
    refine wp_post hroot fun x s1 hlt => ?_
    rw [wp_bind, wp_inode]
    refine wp_post (tagBlocks_borrows _ 0 0 (fun y => (s1.icache y).ref) s1 fun y => Int.le_refl _) fun _ s2 h2 => ?_
    exact ⟨x, Int.lt_of_lt_of_le hlt (h2 x)⟩
  obtain ⟨x, hlt⟩ := wp_ok hwp hrun
  rw [hsame x] at hlt
  exact Int.lt_irrefl _ hlt

/-- The image of `mkfs` with the root directory loaded. -/
def rootLoaded : Option Fs := run fsStep mkfsImage.start [.namei 0 [47], .ilock 0, .iunlock 0]

/-- A query on it that finds nothing. -/
theorem rootLoaded_query : ∃ s s', rootLoaded = some s ∧ exec (getFilesByTag 8 16 1 32 10) s = (.ok 0, s') ∧
    (s.icache 0).ref = 1 ∧ (s.icache 1).ref = 0 ∧ (s'.icache 0).ref = 4 ∧ (s'.icache 1).ref = 1 := by
  have hrun : rootLoaded.map (fun s => ((exec (getFilesByTag 8 16 1 32 10) s).1.toOption, (s.icache 0).ref, (s.icache 1).ref,
      ((exec (getFilesByTag 8 16 1 32 10) s).2.icache 0).ref, ((exec (getFilesByTag 8 16 1 32 10) s).2.icache 1).ref)) =
      some (some 0, 1, 0, 4, 1) := by decide +kernel
  obtain ⟨s, hs, heq⟩ := Option.map_eq_some_iff.mp hrun
  simp only [Prod.mk.injEq] at heq
  obtain ⟨hr, heq⟩ := heq
  rcases hout : exec (getFilesByTag 8 16 1 32 10) s with ⟨stop | r, s'⟩ <;> rw [hout] at hr heq
  · cases hr
  · obtain rfl : r = 0 := by simpa [Except.toOption] using hr
    exact ⟨s, s', hs, hout, heq⟩

/-- That query keeps what it took. -/
theorem getFilesByTag_leaks_rootLoaded : ∃ s s', rootLoaded = some s ∧ exec (getFilesByTag 8 16 1 32 10) s = (.ok 0, s') ∧
    ¬ ((∀ x, (s'.icache x).ref = (s.icache x).ref) ∧ s'.inUse = s.inUse) := by
  obtain ⟨s, s', hs, hrun, -⟩ := rootLoaded_query
  exact ⟨s, s', hs, hrun, getFilesByTag_leaks ⟨8, 16, 1, 32, 10⟩ hrun⟩

/-- Three references to the root directory and one to the file in it stay behind. -/
theorem getFilesByTag_keeps_references : ∃ s s', rootLoaded = some s ∧
    exec (getFilesByTag 8 16 1 32 10) s = (.ok 0, s') ∧ (s'.icache 0).ref = (s.icache 0).ref + 3 ∧
    (s'.icache 1).ref = (s.icache 1).ref + 1 := by
  obtain ⟨s, s', hs, hrun, h0, h1, h0', h1'⟩ := rootLoaded_query
  exact ⟨s, s', hs, hrun, by rw [h0', h0]; rfl, by rw [h1', h1]; rfl⟩

end References

end Xv6
