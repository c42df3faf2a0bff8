import NetbsdAvr32.TcpReass

-- With memory for its entries the queue loses nothing: rcv_nxt stands at the first byte that has not come.
namespace NetbsdAvr32.TcpReass
open Serial List

-- The piece has the byte with this sequence number.
def Has (x : Seq) (b : Pkt) : Prop := (x - b.seq).toNat < b.data.length
def Kept (x : Seq) (l : List Ipqent) : Prop := ∃ q ∈ l,Has x q.pkt

def Held (x : Seq) : Scan → Prop
  | .dup s => Kept x s.segq
  | .insert _ pkt _ before after => Has x pkt ∨ Kept x (before ++ after)

-- The byte is delivered by the call, or still queued.
def Lands (u x : Seq) (r : Reass × Bool) : Prop := (x - u).toNat < (r.1.rcvNxt - u).toNat ∨ Kept x r.1.segq
def Whole (l : List Ipqent) : Prop := ∀ q ∈ l,q.len.toNat = q.data.length
abbrev Any : Bool → Int → Prop := fun _ _ => True

variable {st : Int → UInt8} {P : Ipqent → Prop} {u x : Seq} {b c pkt : Pkt} {s : Reass} {q : Ipqent} {before after : List Ipqent} {tiqe got : Option Nat}

theorem any_joins : Joins Any := fun _ _ _ _ _ _ _ => trivial

theorem Carries.whole (carries : Carries st Any u b) : b.len.toNat = b.data.length := by
  have low := carries.low
  have high := carries.high
  rw [carries.len,BitVec.toNat_ofNat]
  unfold ends half at high
  unfold begins at low
  exact Nat.mod_eq_of_lt (by omega)

section
variable (ahead : 0 ≤ diff x u)
include ahead

theorem has_iff (carries : Carries st Any u b) : Has x b ↔ begins u b ≤ diff x u ∧ diff x u < ends u b := by
  have apart : (x - b.seq).toInt = diff x u - diff b.seq u := (overlap_toInt x b.seq).trans (ahead_diff ahead carries.low)
  have low := carries.low
  have high := carries.high
  have near := (diff_bounds x u).2
  have wide := (x - b.seq).isLt
  rw [BitVec.toInt_eq_toNat_cond] at apart
  unfold Has
  unfold ends begins half at *
  split at apart <;> omega

theorem Spans.has (spans : Spans u c b) (one : Carries st Any u b) (two : Carries st Any u c) (has : Has x b) : Has x c := by
  obtain ⟨low,high⟩ := (has_iff ahead one).mp has
  exact (has_iff ahead two).mpr ⟨Int.le_trans spans.1 low,Int.lt_of_lt_of_le high spans.2⟩

theorem scan_held (walk : Walk st Any P u s pkt tiqe before after) (held : Has x pkt ∨ Kept x (before ++ after)) :
    Held x (scan s pkt tiqe before [] after) := by
  induction after generalizing s pkt tiqe before with
  | nil => exact held
  | cons q rest ih =>
    have entry := walk.entries.split.1
    have takes : ∀ {c : Pkt},Carries st Any u c → Spans u c pkt ∧ Spans u c q.pkt → Has x c ∨ Kept x (before ++ rest) := by
      intro c carries spans
      rcases held with here | ⟨p,mem,here⟩
      · exact .inl (spans.1.has ahead walk.carries carries here)
      rcases mem_cons.mp (perm_middle.mem_iff.mp mem) with rfl | other
      · exact .inl (spans.2.has ahead entry carries here)
      · exact .inr ⟨p,other,here⟩
    have turned := scan_turn any_joins walk
    generalize scan s pkt tiqe before [] (q :: rest) = result at turned ⊢
    cases turned with
    | gone _ walk' _ _ _ _ spans => exact ih walk' (takes walk'.carries spans)
    | passed walk' => exact ih walk' (by simpa using held)
    | beyond => exact held
    | dup spans => exact held.elim (fun here => ⟨q,by simp,spans.has ahead walk.carries entry here⟩) id
    | joined _ walk' _ _ _ spans => exact takes walk'.carries spans
end

theorem present_held (whole : Whole s.segq) (kept : Kept x s.segq) : Lands s.rcvNxt x (present s) := by
  unfold present
  split
  · exact .inr kept
  next q rest segq =>
  split
  · exact .inr kept
  next here =>
  obtain ⟨p,mem,has⟩ := kept
  rw [segq] at whole mem
  rcases mem_cons.mp mem with rfl | later
  · refine .inl ?_
    have moved : s.rcvNxt + p.len - s.rcvNxt = p.len := by rw [BitVec.add_comm,BitVec.add_sub_cancel]
    dsimp only
    rw [moved,whole p (by simp),← not_not.mp here]
    exact has
  · exact .inr ⟨p,later,has⟩

-- The entry is put among the others, or in the place of one of which it has the bytes.
theorem Whole.put (whole : Whole (before ++ after)) (entry : q.len.toNat = q.data.length) : Whole (before ++ q :: after) := by
  intro p mem
  rcases mem_cons.mp (perm_middle.mem_iff.mp mem) with rfl | other
  · exact entry
  · exact whole p other

theorem Kept.put (held : Has x q.pkt ∨ Kept x (before ++ after)) : Kept x (before ++ q :: after) := by
  rcases held with here | ⟨p,mem,here⟩
  · exact ⟨q,by simp,here⟩
  · exact ⟨p,perm_middle.mem_iff.mpr (mem_cons_of_mem _ mem),here⟩

theorem Queue.whole (queue : Queue st Any s) : Whole s.segq := fun q mem => (queue.entries.each q mem).whole

section
variable (memory : got.isSome)
include memory

theorem insertIt_held (whole : Whole (before ++ after)) (len : pkt.len.toNat = pkt.data.length) (held : Has x pkt ∨ Kept x (before ++ after)) :
    Lands s.rcvNxt x (insertIt s pkt tiqe got before after) := by
  unfold insertIt
  split
  · next none_ => cases tiqe <;> cases got <;> cases memory <;> cases none_
  · next addr _ => exact @present_held x {s with segq := _,timeq := _,segqlen := _} (whole.put len) (.put held)

variable (ahead : 0 ≤ diff x s.rcvNxt) (queue : Queue st Any s) (carries : Carries st Any s.rcvNxt pkt) (held : Has x pkt ∨ Kept x s.segq)
include ahead queue carries held

theorem search_held : Lands s.rcvNxt x (search s pkt got) := by
  have walk : Walk st Any (fun _ => True) s.rcvNxt s pkt none [] s.segq :=
    ⟨carries,queue.entries,by simp,queue.counted,by simp,fun _ _ => trivial⟩
  have scanned := scan_spec any_joins walk
  have kept := scan_held ahead walk held
  unfold search
  split
  · next s' result =>
    rw [result] at kept
    exact .inr kept
  next s' pkt' tiqe before after result =>
  rw [result] at scanned kept
  obtain ⟨frame,walk,_⟩ := scanned
  rw [← frame.rcvNxt]
  exact insertIt_held memory (fun q mem => (walk.entries.each q mem).whole) walk.carries.whole kept

omit memory in
theorem taken_held {c : Ipqent} {addr : Nat} (segq : s.segq = before ++ q :: after) (entry : Carries st Any s.rcvNxt c.pkt)
    (spans : Spans s.rcvNxt c.pkt pkt ∧ Spans s.rcvNxt c.pkt q.pkt) : Lands s.rcvNxt x (skipReplacement s (before ++ c :: after) addr) := by
  have whole := queue.whole
  have old := queue.entries.each q (by simp [segq])
  rw [segq] at whole held
  refine @present_held x {s with segq := _,timeq := _} (Whole.put (fun p mem => ?_) entry.whole) (.put ?_)
  · exact whole p (perm_middle.mem_iff.mpr (mem_cons_of_mem _ mem))
  rcases held with here | ⟨p,mem,here⟩
  · exact .inl (spans.1.has ahead carries entry here)
  rcases mem_cons.mp (perm_middle.mem_iff.mp mem) with rfl | other
  · exact .inl (spans.2.has ahead old entry here)
  · exact .inr ⟨p,other,here⟩

theorem prependFirst_held : Lands s.rcvNxt x (prependFirst s pkt got) := by
  unfold prependFirst
  split
  · exact search_held memory ahead queue carries held
  next q rest segq =>
  split
  · next touch =>
    have entry := queue.entries.each q (by simp [segq])
    have touch : ends s.rcvNxt pkt = begins s.rcvNxt q.pkt := (stop_eq_iff carries entry.low).mp touch
    have order := begins_le_ends s.rcvNxt q.pkt
    have order' := begins_le_ends s.rcvNxt pkt
    obtain ⟨merged,end_⟩ := carries.join entry touch (BitVec.add_comm q.len pkt.len) (show Any (q.fin || pkt.fin) _ from trivial)
    have begin_ : begins s.rcvNxt ⟨pkt.seq,q.len + pkt.len,q.fin || pkt.fin,pkt.data ++ q.data⟩ = begins s.rcvNxt pkt := rfl
    exact @taken_held _ _ _ _ q [] rest ahead queue carries held _ _ segq merged (spans_join begin_ end_ (by omega) (by omega)).symm
  · exact search_held memory ahead queue carries held

theorem tcpReass_held : Lands s.rcvNxt x (tcpReass s pkt got) := by
  unfold tcpReass
  split
  · exact prependFirst_held memory ahead queue carries held
  next p last =>
  have split_ := (dropLast_append_getLast? p last).symm
  have entry := queue.entries.each p (mem_of_getLast? last)
  have low := carries.low
  have stop : diff p.stop s.rcvNxt = ends s.rcvNxt p.pkt := stop_diff entry
  have order := begins_le_ends s.rcvNxt p.pkt
  have order' := begins_le_ends s.rcvNxt pkt
  split
  · next touch =>
    have touch : ends s.rcvNxt p.pkt = begins s.rcvNxt pkt := (stop_eq_iff entry low).mp touch.symm
    obtain ⟨merged,end_⟩ := entry.join carries touch rfl (show Any (p.fin || pkt.fin) _ from trivial)
    exact taken_held ahead queue carries held split_ merged (spans_join rfl end_ (by omega) (by omega))
  split
  · exact insertIt_held memory (by simpa using queue.whole) carries.whole (by simpa using held)
  · exact prependFirst_held memory ahead queue carries held
end

-- The calls with memory, and the places of the stream that have come so far.
inductive Filled (stream : Nat → UInt8) (start : Reass) : Nat → Reass → (Nat → Prop) → Prop where
  | start : Filled stream start 0 start fun _ => False
  | call {n : Nat} {s : Reass} {pkt : Pkt} {got : Option Nat} {came : Nat → Prop} : Filled stream start n s came → Within stream n s pkt →
      (∀ q ∈ s.segq,got ≠ some q.addr) → got.isSome →
      Filled stream start (n + ((tcpReass s pkt got).1.rcvNxt - s.rcvNxt).toNat) (tcpReass s pkt got).1
        fun j => came j ∨ n + diff pkt.seq s.rcvNxt ≤ j ∧ j < n + diff pkt.seq s.rcvNxt + pkt.data.length
  | socantrcvmore {n : Nat} {s : Reass} {came : Nat → Prop} : Filled stream start n s came → Filled stream start n {s with cantRcvMore := true} came

variable {stream : Nat → UInt8} {start : Reass} {n j : Nat} {came : Nat → Prop}

theorem Filled.run (filled : Filled stream start n s came) : Run stream start n s := by
  induction filled with
  | start => exact .start
  | call _ within unused _ ih => exact .call ih within unused
  | socantrcvmore _ ih => exact .socantrcvmore ih

-- The place has been passed, or its byte is queued.
def Reaches (start : Reass) (n : Nat) (s : Reass) (j : Nat) : Prop := j < n ∨ j < n + 1073741824 ∧ Kept (start.rcvNxt + BitVec.ofNat 32 j) s.segq

theorem place_ahead (inv : Inv stream start n s) (le : n ≤ j) (near : j < n + 1073741824) :
    diff (start.rcvNxt + BitVec.ofNat 32 j) s.rcvNxt = j - n ∧ (start.rcvNxt + BitVec.ofNat 32 j - s.rcvNxt).toNat = j - n := by
  obtain ⟨k,rfl⟩ := Nat.exists_eq_add_of_le le
  have place : start.rcvNxt + BitVec.ofNat 32 (n + k) = s.rcvNxt + BitVec.ofNat 32 k := by rw [inv.next,BitVec.ofNat_add,BitVec.add_assoc]
  rw [place]
  constructor
  · rw [diff_forward (by unfold half; simp) (by unfold half; simp; omega),diff_self]
    omega
  rw [BitVec.add_comm,BitVec.add_sub_cancel,BitVec.toNat_ofNat,Nat.mod_eq_of_lt (by omega)]
  omega

theorem call_reaches (inv : Inv stream start n s) (within : Within stream n s pkt) (memory : got.isSome)
    (held : Reaches start n s j ∨ n + diff pkt.seq s.rcvNxt ≤ j ∧ j < n + diff pkt.seq s.rcvNxt + pkt.data.length) :
    Reaches start (n + ((tcpReass s pkt got).1.rcvNxt - s.rcvNxt).toNat) (tcpReass s pkt got).1 j := by
  by_cases passed : j < n
  · exact .inl (by omega)
  have carries : Carries (seen stream n) Any s.rcvNxt pkt := within.carries
  have low := within.low
  have high := within.high
  have near : j < n + 1073741824 := by
    rcases held with (early | queued) | came <;> omega
  obtain ⟨ahead,apart⟩ := place_ahead inv (by omega) near
  have has : Has (start.rcvNxt + BitVec.ofNat 32 j) pkt ∨ Kept (start.rcvNxt + BitVec.ofNat 32 j) s.segq := by
    rcases held with (early | queued) | came
    · omega
    · exact .inr queued.2
    refine .inl ((has_iff (by omega) carries).mpr ?_)
    unfold ends begins
    omega
  rcases tcpReass_held memory (by omega) inv.queue carries has with delivered | kept
  · rw [apart] at delivered
    exact .inl (by omega)
  · exact .inr ⟨by omega,kept⟩

theorem filled_reaches (fresh : Fresh start) (filled : Filled stream start n s came) (here : came j) : Reaches start n s j := by
  induction filled with
  | start => exact here.elim
  | call filled within _ memory ih => exact call_reaches (run_inv fresh filled.run) within memory (here.imp ih id)
  | socantrcvmore _ ih => exact ih here

def Waiting (n : Nat) (s : Reass) (j : Nat) : Prop := ∃ q ∈ s.segq,n + diff q.seq s.rcvNxt ≤ j ∧ j < n + diff q.seq s.rcvNxt + q.data.length

-- What has come without a gap is delivered, and what came behind the gap waits in the queue.
theorem reassembly_complete (stream : Nat → UInt8) (start s : Reass) (n : Nat) (came : Nat → Prop) (fresh : Fresh start) (filled : Filled stream start n s came) :
    (∀ k,(∀ j < k,came j) → k ≤ n) ∧ ∀ j,came j → j < n ∨ Waiting n s j := by
  have inv := run_inv fresh filled.run
  have waits : ∀ j,came j → j < n ∨ Waiting n s j := by
    intro j here
    by_cases passed : j < n
    · exact .inl passed
    rcases filled_reaches fresh filled here with early | ⟨near,q,mem,has⟩
    · exact .inl early
    obtain ⟨ahead,_⟩ := place_ahead inv (by omega) near
    obtain ⟨low,high⟩ := (has_iff (by omega) (inv.queue.entries.each q mem)).mp has
    have begin_ : begins s.rcvNxt q.pkt = diff q.seq s.rcvNxt := rfl
    have end_ : ends s.rcvNxt q.pkt = diff q.seq s.rcvNxt + q.data.length := rfl
    exact .inr ⟨q,mem,by omega,by omega⟩
  refine ⟨fun k all => Nat.le_of_not_lt fun short_ => ?_,waits⟩
  rcases waits n (all n short_) with early | ⟨q,mem,low,_⟩
  · omega
  · have first : 0 < diff q.seq s.rcvNxt := inv.queue.first q mem
    omega

theorem reassembly_complete_first : ∃ n s came,Filled (fun _ => 7) (listening 5 false) n s came ∧ 1 ≤ n := by
  have filled := @Filled.call (fun _ => 7) (listening 5 false) 0 _ _ (some 1) _ .start (firstByte_within 5 false) (by simp [listening]) rfl
  refine ⟨_,_,_,filled,(reassembly_complete _ _ _ _ _ ⟨rfl,rfl,rfl,rfl⟩ filled).1 1 fun j lt => .inr ?_⟩
  have here : diff (firstByte 5).seq (listening 5 false).rcvNxt = 0 := diff_self 5
  have length : (firstByte 5).data.length = 1 := rfl
  omega
end NetbsdAvr32.TcpReass
