import NetbsdAvr32.AmapRuns

-- am_ppref as chunks of slots with the same reference count.
namespace NetbsdAvr32.Amap
open Cells Function Outcome

-- A chunk of one slot keeps its count biased by one. A longer one keeps it
-- negated, and its length in the next cell.
structure Chunk (pp : Nat → Int) (a : Nat) (ref : Int) (len : Nat) : Prop where
  counted : 0 ≤ ref
  some_ : 0 < len
  first : pp a = if len = 1 then ref + 1 else -(ref + 1)
  second : len ≠ 1 → pp (a + 1) = len

-- The chunks from a on tile the slots below b, with the counts of these slots.
inductive Tiles (pp counts : Nat → Int) : Nat → Nat → Prop
  | nil : Tiles pp counts a a
  | cons : Chunk pp a ref len → (∀ s, a ≤ s → s < a + len → counts s = ref) → Tiles pp counts (a + len) b → Tiles pp counts a b

variable {pp pp' counts counts' : Nat → Int} {a b c size len lcv limit : Nat} {ref : Int}

theorem Chunk.congr {pp' : Nat → Int} (chunk : Chunk pp a ref len) (same : ∀ k, a ≤ k → k < a + len → pp' k = pp k) : Chunk pp' a ref len where
  counted := chunk.counted
  some_ := chunk.some_
  first := by
    have := chunk.some_
    rw [same a (by omega) (by omega),chunk.first]
  second := by
    intro more
    have := chunk.some_
    rw [same (a + 1) (by omega) (by omega),chunk.second more]

theorem Tiles.le (tiles : Tiles pp counts a b) : a ≤ b := by
  induction tiles with
  | nil => exact Nat.le_refl _
  | cons _ _ _ ih => omega

theorem Tiles.congr (tiles : Tiles pp counts a b) (cells : ∀ k, a ≤ k → k < b → pp' k = pp k)
    (same : ∀ k, a ≤ k → k < b → counts' k = counts k) : Tiles pp' counts' a b := by
  induction tiles with
  | nil => exact .nil
  | cons chunk equal rest ih =>
    have bound := rest.le
    refine .cons (chunk.congr fun k low high => cells k low (by omega)) (fun s low high => ?_)
      (ih (fun k low high => cells k (by omega) high) (fun k low high => same k (by omega) high))
    rw [same s low (by omega),equal s low high]

theorem Tiles.append (first : Tiles pp counts a b) (second : Tiles pp counts b c) : Tiles pp counts a c := by
  induction first with
  | nil => exact second
  | cons chunk equal _ ih => exact .cons chunk equal (ih second)

theorem Tiles.snoc (first : Tiles pp counts a b) (chunk : Chunk pp b ref len) (equal : ∀ s, b ≤ s → s < b + len → counts s = ref) :
    Tiles pp counts a (b + len) := first.append (.cons chunk equal .nil)

theorem Tiles.counted (tiles : Tiles pp counts a b) : ∀ s, a ≤ s → s < b → 0 ≤ counts s := by
  induction tiles with
  | nil => intro s low high; omega
  | @cons a ref len b chunk equal _ ih =>
    intro s low high
    by_cases inside : s < a + len
    · rw [equal s low inside]
      exact chunk.counted
    · exact ih s (by omega) high

theorem Tiles.head (tiles : Tiles pp counts a b) (more : a < b) : ∃ ref len, Chunk pp a ref len ∧
    (∀ s, a ≤ s → s < a + len → counts s = ref) ∧ Tiles pp counts (a + len) b := by
  cases tiles with
  | nil => omega
  | cons chunk equal rest => exact ⟨_,_,chunk,equal,rest⟩

theorem get_chunk (size : Nat) (chunk : Chunk pp a ref len) (inside : a + len ≤ size) : ppGetreflen size pp a = .ok (ref,(len : Int)) := by
  have counted := chunk.counted
  have some_ := chunk.some_
  have first := chunk.first
  rw [ppGetreflen,readInt_nat,read_ok (by omega),ok_bind]
  by_cases one : len = 1
  · rw [if_pos (by omega),first,one]
    simp
  have next : ((a : Int) + 1) = ((a + 1 : Nat) : Int) := by push_cast; rfl
  rw [if_neg (by omega),next,readInt_nat,read_ok (by omega),ok_bind,chunk.second one,first]
  congr 2
  omega

theorem set_chunk (size a len : Nat) (pp : Nat → Int) (counted : 0 ≤ ref) (some_ : 0 < len) (inside : a + len ≤ size) :
    ∃ pp', ppSetreflen size pp a ref len = .ok pp' ∧ Chunk pp' a ref len ∧ ∀ k, k < a ∨ a + len ≤ k → pp' k = pp k := by
  unfold ppSetreflen
  rw [if_neg (by omega)]
  by_cases one : len = 1
  · rw [if_pos (by omega),writeInt_nat,write_ok (by omega)]
    refine ⟨_,rfl,⟨counted,some_,by rw [update_self,if_pos one],fun more => absurd one more⟩,fun k out => update_of_ne (by omega) _ _⟩
  have next : ((a : Int) + 1) = ((a + 1 : Nat) : Int) := by push_cast; rfl
  rw [if_neg (by omega),writeInt_nat,write_ok (by omega),ok_bind,next,writeInt_nat,write_ok (by omega)]
  refine ⟨_,rfl,⟨counted,some_,?_,fun _ => update_self _ _ _⟩,fun k out => ?_⟩
  · rw [update_of_ne (by omega),update_self,if_neg one]
    omega
  · rw [update_of_ne (by omega),update_of_ne (by omega)]

theorem set_tiles (size a len : Nat) (counts pp : Nat → Int) (counted : 0 ≤ ref) (inside : a + len ≤ size) (equal : ∀ s, a ≤ s → s < a + len → counts s = ref) :
    ∃ pp', ppSetreflen size pp a ref len = .ok pp' ∧ Tiles pp' counts a (a + len) ∧ ∀ k, k < a ∨ a + len ≤ k → pp' k = pp k := by
  by_cases none_ : len = 0
  · subst none_
    exact ⟨pp,rfl,.nil,fun _ _ => rfl⟩
  obtain ⟨pp',ran,chunk,other⟩ := set_chunk size a len pp counted (Nat.pos_of_ne_zero none_) inside
  exact ⟨pp',ran,.cons chunk equal .nil,other⟩

structure Fragmented (pp counts : Nat → Int) (lcv limit b : Nat) (pp' : Nat → Int) (ref : Int) (len : Nat) : Prop where
  chunk : Chunk pp' lcv ref len
  equal : ∀ s, lcv ≤ s → s < lcv + len → counts s = ref
  bound : lcv + len ≤ limit
  rest : Tiles pp' counts (lcv + len) b
  before : ∀ k, k < lcv → pp' k = pp k

theorem fragment_tiles (size : Nat) (tiles : Tiles pp counts lcv b) (below : lcv < limit) (limits : limit ≤ b) (inside : b ≤ size) :
    ∃ ref len pp' len', ppGetreflen size pp lcv = .ok (ref,(len : Int)) ∧
      fragment size pp lcv limit ref len = .ok (pp',((len' : Nat) : Int)) ∧ Fragmented pp counts lcv limit b pp' ref len' := by
  obtain ⟨ref,len,chunk,equal,rest⟩ := tiles.head (by omega)
  have counted := chunk.counted
  have bound := rest.le
  have got := get_chunk size chunk (by omega)
  unfold fragment
  by_cases past : limit < lcv + len
  · have keeps : ((limit : Int) - lcv) = ((limit - lcv : Nat) : Int) := by omega
    have leaves : ((len : Int) - (limit - lcv : Nat)) = ((len - (limit - lcv) : Nat) : Int) := by omega
    obtain ⟨pp₁,ran₁,chunk₁,other₁⟩ := set_chunk size lcv (limit - lcv) pp counted (by omega) (by omega)
    obtain ⟨pp₂,ran₂,chunk₂,other₂⟩ := set_chunk size limit (len - (limit - lcv)) pp₁ counted (by omega) (by omega)
    have next : lcv + (limit - lcv) = limit := by omega
    refine ⟨ref,len,pp₂,limit - lcv,got,?_,?_,?_,?_,?_,?_⟩
    · rw [if_pos (by omega),keeps,leaves,ran₁,ok_bind,ran₂,ok_bind]
    · exact chunk₁.congr fun k low high => other₂ k (by omega)
    · exact fun s low high => equal s low (by omega)
    · omega
    · rw [next]
      refine .cons chunk₂ (fun s low high => equal s (by omega) (by omega)) ?_
      have ends : limit + (len - (limit - lcv)) = lcv + len := by omega
      rw [ends]
      refine rest.congr (fun k low high => ?_) fun _ _ _ => rfl
      rw [other₂ k (by omega),other₁ k (by omega)]
    intro k low
    rw [other₂ k (by omega),other₁ k (by omega)]
  · exact ⟨ref,len,pp,len,got,if_neg (by omega),chunk,equal,by omega,rest,fun _ _ => rfl⟩
end NetbsdAvr32.Amap

-- amap_pp_adjref adds to the count of each slot of its range.
namespace NetbsdAvr32.Amap
open Cells Function

-- The last chunk before lcv, if there is one.
inductive Last (pp counts : Nat → Int) : Nat → Nat → Int → Nat → Prop
  | none : Last pp counts 0 0 (-1) 0
  | chunk : Tiles pp counts 0 prevlcv → Chunk pp prevlcv prevref prevlen →
      (∀ s, prevlcv ≤ s → s < prevlcv + prevlen → counts s = prevref) →
      Last pp counts (prevlcv + prevlen) prevlcv prevref prevlen

def adjusted (counts : Nat → Int) (curslot slotlen : Nat) (adjval : Int) (s : Nat) : Int :=
  if curslot ≤ s ∧ s < curslot + slotlen then counts s + adjval else counts s

def called (wiped : List (Int × Int)) : List Nat := wiped.flatMap fun call => List.range' call.1.toNat call.2.toNat
def established (ref : Int) (offset s : Nat) : Int := if s < offset then 0 else ref

-- The runs of amap_pp_establish and amap_pp_adjref on an amap, with the references
-- of each slot where there is an array for them. The slots in use and am_ref
-- change in between.
inductive Counted : Amap → Option (Nat → Int) → Prop
  | start : Sound amap → 0 ≤ amap.amRef → amap.amPpref = .absent → Counted amap none
  | changed : Counted amap view → Sound amap' → 0 ≤ amap'.amRef → amap'.amPpref = amap.amPpref → amap'.amNslot = amap.amNslot →
      amap'.amMaxslot = amap.amMaxslot → Counted amap' view
  | established : Counted amap view → offset ≤ amap.amNslot → amapPpEstablish memory amap (offset : Nat) = .ok amap' →
      Counted amap' (memory.ppref.map fun _ => established amap.amRef offset)
  | adjusted : Counted amap (some counts) → curslot + slotlen ≤ amap.amNslot →
      (∀ s, curslot ≤ s → s < curslot + slotlen → 0 ≤ counts s + adjval) →
      amapPpAdjref rounds amap anons (curslot : Nat) (slotlen : Nat) adjval = .ok (amap',anons',wiped) →
      amap.amNslot < rounds → Counted amap' (some (adjusted counts curslot slotlen adjval))

inductive Shown : Ppref → Nat → Option (Nat → Int) → Prop
  | absent : Shown .absent nslot none
  | disabled : Shown .disabled nslot none
  | cells : Tiles pp counts 0 nslot → Shown (.cells pp) nslot (some counts)

structure Kept (amap : Amap) (view : Option (Nat → Int)) : Prop where
  sound : Sound amap
  counted : 0 ≤ amap.amRef
  shown : Shown amap.amPpref amap.amNslot view

variable {pp pp' counts counts' after : Nat → Int} {a b size len lcv prevlcv curslot stopslot slotlen nslot : Nat}
variable {adjval prevref : Int} {amap amap' : Amap} {memory : Memory}

theorem Last.tiles (last : Last pp counts lcv prevlcv prevref len) : Tiles pp counts 0 lcv := by
  cases last with
  | none => exact .nil
  | chunk tiles chunk equal => exact tiles.snoc chunk equal

theorem advance_ok (nslot : Nat) (inside : nslot ≤ size) (range : curslot ≤ nslot) (rounds : Nat) (last : Last pp counts lcv prevlcv prevref len)
    (rest : Tiles pp counts lcv nslot) (before : lcv ≤ curslot) (enough : curslot - lcv < rounds) :
    ∃ pp' prevlcv' prevref' len', advance size curslot rounds pp lcv prevlcv = .ok (pp',(curslot : Int),((prevlcv' : Nat) : Int)) ∧
      Last pp' counts curslot prevlcv' prevref' len' ∧ Tiles pp' counts curslot nslot := by
  induction rounds generalizing pp lcv prevlcv prevref len with
  | zero => omega
  | succ rounds ih =>
    rw [advance]
    by_cases more : lcv < curslot
    · obtain ⟨ref,len₁,pp₁,len₂,got,ran,cut⟩ := fragment_tiles size rest more range inside
      have some_ := cut.chunk.some_
      have tiles := last.tiles.congr (fun k _ high => cut.before k high) (fun _ _ _ => rfl)
      obtain ⟨pp',prevlcv',prevref',len',went,last',rest'⟩ := ih (.chunk tiles cut.chunk cut.equal) cut.rest cut.bound (by omega)
      refine ⟨pp',prevlcv',prevref',len',?_,last',rest'⟩
      rw [if_pos (by omega),got,Outcome.ok_bind]
      dsimp only
      rw [ran,Outcome.ok_bind]
      exact went
    have here : lcv = curslot := by omega
    subst here
    exact ⟨pp,prevlcv,prevref,len,if_neg (by omega),last,rest⟩

structure Swept (amap : Amap) (lcv stopslot : Nat) (after : Nat → Int) (amap' : Amap) (wiped : List (Int × Int)) : Prop where
  sound : Sound amap'
  ref : amap'.amRef = amap.amRef
  maxslot : amap'.amMaxslot = amap.amMaxslot
  nslot : amap'.amNslot = amap.amNslot
  anon : ∀ s, amap'.amAnon s = if lcv ≤ s ∧ s < stopslot ∧ after s = 0 then none else amap.amAnon s
  calls : called wiped = (List.range' lcv (stopslot - lcv)).filter fun s => decide (after s = 0)

theorem swept_none (sound : Sound amap) (done : stopslot ≤ lcv) (ppref : Ppref) :
    Swept amap lcv stopslot after {amap with amPpref := ppref} [] where
  sound := ⟨sound.fits,sound.indexed⟩
  ref := rfl
  maxslot := rfl
  nslot := rfl
  anon := fun s => (if_neg (by omega)).symm
  calls := by
    have : stopslot - lcv = 0 := by omega
    rw [this]
    rfl

theorem range_chunk (bound : lcv + len ≤ stopslot) :
    List.range' lcv (stopslot - lcv) = List.range' lcv len ++ List.range' (lcv + len) (stopslot - (lcv + len)) := by
  have : stopslot - lcv = len + (stopslot - (lcv + len)) := by omega
  rw [this,← List.range'_append_1]

theorem Swept.skip (rest : Swept amap (lcv + len) stopslot after amap' wiped) (bound : lcv + len ≤ stopslot)
    (kept : ∀ s, lcv ≤ s → s < lcv + len → after s ≠ 0) : Swept amap lcv stopslot after amap' wiped where
  sound := rest.sound
  ref := rest.ref
  maxslot := rest.maxslot
  nslot := rest.nslot
  anon := by
    intro s
    rw [rest.anon s]
    by_cases inside : lcv ≤ s ∧ s < lcv + len
    · rw [if_neg (by omega),if_neg fun zero => kept s inside.1 inside.2 zero.2.2]
    have : (lcv + len ≤ s ∧ s < stopslot ∧ after s = 0) ↔ lcv ≤ s ∧ s < stopslot ∧ after s = 0 := by omega
    simp only [this]
  calls := by
    have none_ : (List.range' lcv len).filter (fun s => decide (after s = 0)) = [] := by
      rw [List.filter_eq_nil_iff]
      intro s mem
      have := List.mem_range'_1.mp mem
      simpa using kept s this.1 this.2
    rw [rest.calls,range_chunk bound,List.filter_append,none_,List.nil_append]

theorem Swept.wipe (sound : Sound amap) (wiped : Wiped amap anons slots amap₁ anons₁) (range : ∀ s, s ∈ slots ↔ Live amap s ∧ lcv ≤ s ∧ s < lcv + len)
    (inside : lcv + len ≤ amap.amMaxslot) (zero : ∀ s, lcv ≤ s → s < lcv + len → after s = 0) (bound : lcv + len ≤ stopslot)
    (rest : Swept amap₁ (lcv + len) stopslot after amap' later) : Swept amap lcv stopslot after amap' (((lcv : Int),(len : Int)) :: later) where
  sound := rest.sound
  ref := rest.ref.trans wiped.same.ref
  maxslot := rest.maxslot.trans wiped.same.maxslot
  nslot := rest.nslot.trans wiped.same.nslot
  anon := by
    intro s
    rw [rest.anon s,wiped.anon s]
    by_cases here : lcv ≤ s ∧ s < lcv + len
    · rw [if_neg (by omega),if_pos (⟨here.1,by omega,zero s here.1 here.2⟩ : lcv ≤ s ∧ s < stopslot ∧ after s = 0)]
      by_cases held : amap.amAnon s = none
      · simp [held]
      · rw [if_pos ((range s).mpr ⟨⟨by omega,held⟩,here⟩)]
    have same : (lcv + len ≤ s ∧ s < stopslot ∧ after s = 0) ↔ lcv ≤ s ∧ s < stopslot ∧ after s = 0 := by omega
    rw [if_neg fun mem => here ((range s).mp mem).2]
    simp only [same]
  calls := by
    have all : (List.range' lcv len).filter (fun s => decide (after s = 0)) = List.range' lcv len := by
      rw [List.filter_eq_self]
      intro s mem
      have := List.mem_range'_1.mp mem
      simpa using zero s this.1 this.2
    rw [range_chunk bound,List.filter_append,all,← rest.calls]
    rfl

structure Adjusting (counts after : Nat → Int) (pp : Nat → Int) (lcv nslot prevlcv : Nat) (prevref : Int) (prevlen : Nat) : Prop where
  done : Tiles pp after 0 lcv
  left : Tiles pp counts lcv nslot
  past : prevlcv + prevlen ≤ lcv
  joint : lcv = prevlcv + prevlen → Last pp after lcv prevlcv prevref prevlen

theorem adjust_chunk (state : Adjusting counts after pp lcv nslot prevlcv prevref prevlen)
    (cut : Fragmented pp counts lcv stopslot nslot pp₁ ref len) (counted : 0 ≤ ref + adjval)
    (equal : ∀ s, lcv ≤ s → s < lcv + len → after s = ref + adjval) (size : Nat) (inside : nslot ≤ size) :
    ∃ pp', (if (lcv : Int) = prevlcv + prevlen ∧ ref + adjval = prevref
        then ppSetreflen size pp₁ prevlcv (ref + adjval) ((prevlen : Int) + len)
        else ppSetreflen size pp₁ lcv (ref + adjval) len) = .ok pp' ∧
      Adjusting counts after pp' (lcv + len) nslot prevlcv prevref prevlen := by
  have some_ := cut.chunk.some_
  have bound := cut.rest.le
  have past := state.past
  have build : ∀ pp', Tiles pp' after 0 (lcv + len) → (∀ k, lcv + len ≤ k → pp' k = pp₁ k) →
      Adjusting counts after pp' (lcv + len) nslot prevlcv prevref prevlen := by
    intro pp' tiles other
    exact ⟨tiles,cut.rest.congr (fun k low _ => other k low) fun _ _ _ => rfl,by omega,fun here => by omega⟩
  by_cases join : (lcv : Int) = prevlcv + prevlen ∧ ref + adjval = prevref
  · have last := state.joint (by omega)
    cases last with
    | none => have := join.2; omega
    | chunk tiles chunk same =>
      have sums : ((prevlen : Int) + len) = ((prevlen + len : Nat) : Int) := by push_cast; rfl
      obtain ⟨pp',ran,chunk',other⟩ := set_chunk size prevlcv (prevlen + len) pp₁ counted (by omega) (by omega)
      refine ⟨pp',by rw [if_pos join,sums,ran],build pp' ?_ fun k high => other k (by omega)⟩
      have kept : Tiles pp' after 0 prevlcv := tiles.congr
        (fun k _ high => by rw [other k (by omega),cut.before k (by omega)]) fun _ _ _ => rfl
      have joined := kept.snoc chunk' fun s low high => by
        by_cases old : s < prevlcv + prevlen
        · rw [same s low old,join.2]
        · exact equal s (by omega) (by omega)
      rwa [← Nat.add_assoc] at joined
  obtain ⟨pp',ran,chunk',other⟩ := set_chunk size lcv len pp₁ counted some_ (by omega)
  refine ⟨pp',by rw [if_neg join,ran],build pp' ?_ fun k high => other k (by omega)⟩
  have kept : Tiles pp' after 0 lcv := state.done.congr
    (fun k _ high => by rw [other k (by omega),cut.before k high]) fun _ _ _ => rfl
  exact kept.snoc chunk' equal

theorem adjust_ok (prevlcv : Nat) (prevref : Int) (prevlen : Nat) (range : stopslot ≤ nslot) (anons : Anons) (rounds : Nat)
    (state : Adjusting counts after pp lcv nslot prevlcv prevref prevlen) (sound : Sound amap) (slots : amap.amNslot = nslot)
    (added : ∀ s, lcv ≤ s → s < stopslot → after s = counts s + adjval ∧ 0 ≤ after s) (kept : ∀ s, stopslot ≤ s → after s = counts s)
    (low : lcv ≤ stopslot) (enough : stopslot - lcv < rounds) :
    ∃ amap' anons' wiped pp', adjust stopslot adjval prevlcv prevref prevlen rounds amap anons pp lcv = .ok (amap',anons',wiped) ∧
      Swept amap lcv stopslot after amap' wiped ∧ amap'.amPpref = .cells pp' ∧ Tiles pp' after 0 nslot := by
  have fits := sound.fits
  induction rounds generalizing pp lcv amap anons with
  | zero => omega
  | succ rounds ih =>
    rw [adjust]
    by_cases more : lcv < stopslot
    · obtain ⟨ref,len₁,pp₁,len,got,ran,cut⟩ := fragment_tiles amap.amMaxslot state.left more range (by omega)
      have some_ := cut.chunk.some_
      have bound := cut.bound
      have equal : ∀ s, lcv ≤ s → s < lcv + len → after s = ref + adjval := fun s low high => by
        rw [(added s low (by omega)).1,cut.equal s low high]
      have counted : 0 ≤ ref + adjval := by
        rw [← equal lcv (by omega) (by omega)]
        exact (added lcv (by omega) (by omega)).2
      obtain ⟨pp₂,set_,state₂⟩ := adjust_chunk state cut counted equal amap.amMaxslot (by omega)
      rw [if_pos (by omega),got,Outcome.ok_bind]
      dsimp only
      rw [ran,Outcome.ok_bind]
      rw [if_neg (by omega),set_,Outcome.ok_bind]
      have added₂ : ∀ s, lcv + len ≤ s → s < stopslot → after s = counts s + adjval ∧ 0 ≤ after s := fun s low high => added s (by omega) high
      by_cases zero : ref + adjval = 0
      · obtain ⟨slots_,amap₁,anons₁,went,wiped,mem⟩ := amapWiperange_spec sound lcv len (by omega) anons
        obtain ⟨amap',anons',calls,pp',rest,swept,cells,tiles⟩ := ih anons₁ state₂ wiped.sound (by rw [wiped.same.nslot,slots]) added₂
          bound (by omega) wiped.sound.fits
        rw [if_pos zero,went,Outcome.ok_bind]
        rw [← Int.natCast_add,rest,Outcome.ok_bind]
        have zeros : ∀ s, lcv ≤ s → s < lcv + len → after s = 0 := fun s low high => by rw [equal s low high,zero]
        exact ⟨amap',anons',_,pp',rfl,swept.wipe sound wiped mem (by omega) zeros bound,cells,tiles⟩
      obtain ⟨amap',anons',calls,pp',rest,swept,cells,tiles⟩ := ih anons state₂ sound slots added₂ bound (by omega) fits
      rw [if_neg zero,← Int.natCast_add,rest]
      exact ⟨amap',anons',calls,pp',rfl,swept.skip bound fun s low high => by rw [equal s low high]; exact zero,cells,tiles⟩
    have here : lcv = stopslot := by omega
    subst here
    refine ⟨_,anons,[],pp,if_neg (by omega),swept_none sound (Nat.le_refl _) _,rfl,?_⟩
    exact state.done.append (state.left.congr (fun _ _ _ => rfl) fun s low _ => kept s low)

theorem adjref_ok (sound : Sound amap) (cells : amap.amPpref = .cells pp) (tiles : Tiles pp counts 0 amap.amNslot)
    (range : curslot + slotlen ≤ amap.amNslot) (counted : ∀ s, curslot ≤ s → s < curslot + slotlen → 0 ≤ counts s + adjval)
    (rounds : Nat) (enough : amap.amNslot < rounds) (anons : Anons) :
    ∃ amap' anons' wiped pp', amapPpAdjref rounds amap anons curslot slotlen adjval = .ok (amap',anons',wiped) ∧
      Swept amap curslot (curslot + slotlen) (adjusted counts curslot slotlen adjval) amap' wiped ∧
      amap'.amPpref = .cells pp' ∧ Tiles pp' (adjusted counts curslot slotlen adjval) 0 amap.amNslot := by
  have fits := sound.fits
  obtain ⟨pp₁,prevlcv,prevref,prevlen,went,last,left⟩ := advance_ok amap.amNslot fits (show curslot ≤ amap.amNslot by omega) rounds
    .none tiles (Nat.zero_le _) (by omega)
  have below : ∀ s, 0 ≤ s → s < curslot → adjusted counts curslot slotlen adjval s = counts s :=
    fun s _ low => if_neg (by omega)
  have within : ∀ s, curslot ≤ s → s < curslot + slotlen → adjusted counts curslot slotlen adjval s = counts s + adjval :=
    fun s low high => if_pos ⟨low,high⟩
  have above : ∀ s, curslot + slotlen ≤ s → adjusted counts curslot slotlen adjval s = counts s := fun s high => if_neg (by omega)
  have nonneg : ∀ s, curslot ≤ s → s < curslot + slotlen → 0 ≤ adjusted counts curslot slotlen adjval s := fun s low high => by
    rw [within s low high]
    exact counted s low high
  -- The chunk before curslot is the one that may be joined.
  have previous : ∃ prevref prevlen, (if (curslot : Int) ≠ 0 then ppGetreflen amap.amMaxslot pp₁ prevlcv else .ok (-1,0)) =
      .ok (prevref,((prevlen : Nat) : Int)) ∧
      Adjusting counts (adjusted counts curslot slotlen adjval) pp₁ curslot amap.amNslot prevlcv prevref prevlen := by
    have done := last.tiles.congr (fun _ _ _ => rfl) below
    cases last with
    | none => exact ⟨-1,0,if_neg (by omega),done,left,by omega,fun _ => .none⟩
    | chunk before chunk equal =>
      have some_ := chunk.some_
      refine ⟨prevref,prevlen,?_,done,left,by omega,fun _ => ?_⟩
      · rw [if_pos (by omega),get_chunk _ chunk (by omega)]
      refine .chunk (before.congr (fun _ _ _ => rfl) fun s low high => below s low (by omega)) chunk fun s low high => ?_
      rw [below s (by omega) high,equal s low high]
  obtain ⟨prevref,prevlen,got,state⟩ := previous
  obtain ⟨amap',anons',wiped,pp',rest,swept,cells',tiles'⟩ := adjust_ok prevlcv prevref prevlen range anons rounds state sound rfl
    (fun s low high => ⟨within s low high,nonneg s low high⟩) above (by omega) (by omega)
  refine ⟨amap',anons',wiped,pp',?_,swept,cells',tiles'⟩
  rw [amapPpAdjref,cells]
  dsimp only
  have start : advance amap.amMaxslot curslot rounds pp 0 0 = _ := went
  rw [start,Outcome.ok_bind]
  rw [got,Outcome.ok_bind]
  rw [if_neg (not_not.mpr rfl),← Int.natCast_add]
  exact rest

theorem establish_ok (fits : amap.amNslot ≤ amap.amMaxslot) (counted : 0 ≤ amap.amRef) (offset : Nat) (range : offset ≤ amap.amNslot)
    (given : memory.ppref = some fresh) : ∃ pp, amapPpEstablish memory amap offset = .ok {amap with amPpref := .cells pp} ∧
      Tiles pp (established amap.amRef offset) 0 amap.amNslot := by
  have left : ((amap.amNslot : Int) - offset) = ((amap.amNslot - offset : Nat) : Int) := by omega
  obtain ⟨pp₁,ran₁,tiles₁,_⟩ := set_tiles amap.amMaxslot 0 offset (established amap.amRef offset)
    (filled fresh 0 amap.amMaxslot 0) (Int.le_refl 0) (by omega) fun s _ high => if_pos (by omega)
  obtain ⟨pp₂,ran₂,tiles₂,other₂⟩ := set_tiles amap.amMaxslot offset (amap.amNslot - offset)
    (established amap.amRef offset) pp₁ counted (by omega) fun s low _ => if_neg (by omega)
  refine ⟨pp₂,?_,?_⟩
  · rw [amapPpEstablish,given]
    dsimp only
    have first : ppSetreflen amap.amMaxslot (filled fresh 0 amap.amMaxslot 0) 0 0 offset = _ := ran₁
    rw [fill_ok (by omega),Outcome.ok_bind,first,Outcome.ok_bind,left,ran₂,Outcome.ok_bind]
  have ends : offset + (amap.amNslot - offset) = amap.amNslot := by omega
  rw [ends] at tiles₂
  rw [Nat.zero_add] at tiles₁
  exact (tiles₁.congr (fun k _ high => other₂ k (by omega)) fun _ _ _ => rfl).append tiles₂

theorem establish_kept (kept : Kept amap view) (offset : Nat) (range : offset ≤ amap.amNslot) (memory : Memory) :
    ∃ amap', amapPpEstablish memory amap offset = .ok amap' ∧ Kept amap' (memory.ppref.map fun _ => established amap.amRef offset) := by
  cases given : memory.ppref with
  | none =>
    refine ⟨{amap with amPpref := .disabled},?_,⟨kept.sound.fits,kept.sound.indexed⟩,kept.counted,.disabled⟩
    rw [amapPpEstablish,given]
  | some fresh =>
    obtain ⟨pp,ran,tiles⟩ := establish_ok kept.sound.fits kept.counted offset range given
    exact ⟨_,ran,⟨kept.sound.fits,kept.sound.indexed⟩,kept.counted,.cells tiles⟩

theorem adjref_kept (kept : Kept amap (some counts)) (range : curslot + slotlen ≤ amap.amNslot)
    (counted : ∀ s, curslot ≤ s → s < curslot + slotlen → 0 ≤ counts s + adjval) (rounds : Nat) (enough : amap.amNslot < rounds)
    (anons : Anons) : ∃ amap' anons' wiped, amapPpAdjref rounds amap anons curslot slotlen adjval = .ok (amap',anons',wiped) ∧
      Swept amap curslot (curslot + slotlen) (adjusted counts curslot slotlen adjval) amap' wiped ∧
      Kept amap' (some (adjusted counts curslot slotlen adjval)) := by
  cases shown : amap.amPpref with
  | absent | disabled => have := kept.shown; rw [shown] at this; cases this
  | cells pp =>
    have tiles := kept.shown
    rw [shown] at tiles
    cases tiles with
    | cells tiles =>
      obtain ⟨amap',anons',wiped,pp',ran,swept,cells,tiles'⟩ := adjref_ok kept.sound shown tiles range counted rounds enough anons
      refine ⟨amap',anons',wiped,ran,swept,swept.sound,by rw [swept.ref]; exact kept.counted,?_⟩
      rw [cells,swept.nslot]
      exact .cells tiles'

theorem Counted.kept (run : Counted amap view) : Kept amap view := by
  induction run with
  | start sound counted absent => exact ⟨sound,counted,by rw [absent]; exact .absent⟩
  | changed _ sound counted ppref nslot _ ih => exact ⟨sound,counted,by rw [ppref,nslot]; exact ih.shown⟩
  | @established _ _ offset memory _ _ range ran ih =>
    obtain ⟨_,went,kept⟩ := establish_kept ih offset range memory
    rw [went] at ran
    cases ran
    exact kept
  | @adjusted _ counts _ _ adjval rounds anons _ _ _ _ range counted ran enough ih =>
    obtain ⟨_,_,_,went,_,kept⟩ := adjref_kept ih range counted rounds enough anons
    rw [went] at ran
    cases ran
    exact kept

-- After every run: am_ppref shows the references of each slot, both calls return,
-- and amap_wiperange is called once for each slot whose references become 0.
theorem ppref_counts (run : Counted amap view) : Shown amap.amPpref amap.amNslot view ∧
    (∀ offset : Nat, offset ≤ amap.amNslot → ∀ memory, ∃ amap', amapPpEstablish memory amap offset = .ok amap' ∧
      Counted amap' (memory.ppref.map fun _ => established amap.amRef offset)) ∧
    ∀ counts, view = some counts → ∀ (curslot slotlen : Nat) (adjval : Int), curslot + slotlen ≤ amap.amNslot →
      (∀ s, curslot ≤ s → s < curslot + slotlen → 0 ≤ counts s + adjval) → ∀ rounds, amap.amNslot < rounds → ∀ anons,
      ∃ amap' anons' wiped, amapPpAdjref rounds amap anons curslot slotlen adjval = .ok (amap',anons',wiped) ∧
        Counted amap' (some (adjusted counts curslot slotlen adjval)) ∧
        called wiped = (List.range' curslot slotlen).filter fun s => decide (adjusted counts curslot slotlen adjval s = 0) := by
  refine ⟨run.kept.shown,fun offset range memory => ?_,fun counts same curslot slotlen adjval range counted rounds enough anons => ?_⟩
  · obtain ⟨amap',ran,_⟩ := establish_kept run.kept offset range memory
    exact ⟨amap',ran,.established run range ran⟩
  subst same
  obtain ⟨amap',anons',wiped,ran,swept,_⟩ := adjref_kept run.kept range counted rounds enough anons
  refine ⟨amap',anons',wiped,ran,.adjusted run range counted ran enough,?_⟩
  have calls := swept.calls
  rwa [Nat.add_sub_cancel_left] at calls

-- An amap of four slots, with references from slot 1 on; then slots 1 and 2 lose theirs.
theorem ppref_counts_four : ∃ amap, Shown amap.amPpref 4 (some (established 1 1)) ∧ ∃ amap' anons' wiped,
    amapPpAdjref 5 amap ⟨fun _ => 1,[]⟩ (1 : Nat) (2 : Nat) (-1) = .ok (amap',anons',wiped) ∧ called wiped = [1,2] := by
  let memory : Memory := ⟨true,some fun _ => 0,some fun _ => 0,some fun _ => none,some fun _ => 9⟩
  have made : amapAlloc memory 4 0 = .ok (some _) := rfl
  have start : Counted _ none := .start (amapAlloc_sound made) (by decide) rfl
  have split := Counted.established start (show 1 ≤ 4 by decide) (show amapPpEstablish memory _ (1 : Nat) = .ok _ from rfl)
  obtain ⟨shown,_,adjust⟩ := ppref_counts split
  have counted : ∀ s, 1 ≤ s → s < 1 + 2 → 0 ≤ established 1 1 s + -1 := fun s low _ => by
    rw [established,if_neg (by omega)]
    decide
  obtain ⟨amap',anons',wiped,ran,_,calls⟩ := adjust _ rfl 1 2 (-1) (by decide) counted 5 (by decide) ⟨fun _ => 1,[]⟩
  exact ⟨_,shown,amap',anons',wiped,ran,calls⟩
end NetbsdAvr32.Amap
