import Mathlib.Tactic.Common
import NetbsdAvr32.PropData

-- Both passes of the decoder agree, and it reads what the encoder wrote.
namespace NetbsdAvr32.PropData
open Outcome List Nat
variable {t : List Byte} {ch : Byte} {src done rest : List Byte} {d : Decoder} {n k s pos : Nat} {realloc : Nat → Bool} {ctx : Context}

theorem alter_at (done rest : List Byte) (x : Byte) (f : Byte → Byte) : alter (done ++ x :: rest) done.length f = .ok (done ++ f x :: rest) := by
  unfold alter
  simp

theorem alter_next (done rest : List Byte) (x y : Byte) (f : Byte → Byte) :
    alter (done ++ y :: x :: rest) (done.length + 1) f = .ok (done ++ y :: f x :: rest) := by
  have here := alter_at (done ++ [y]) rest x f
  rwa [length_append,length_singleton,append_assoc,singleton_append,append_assoc,singleton_append] at here

theorem alter_length (lt : k < t.length) (f : Byte → Byte) : ∃ u,alter t k f = .ok u ∧ u.length = t.length := by
  refine ⟨t.set k (f t[k]),?_,length_set⟩
  rw [alter,getElem?_eq_getElem lt]

-- The two passes after one character: the same place, or the buffer is too short for it.
inductive Stored (n k : Nat) : Run Decoder → Run Decoder → Prop where
  | both {t : List Byte} {i s : Nat} : t.length = n → k ≤ i → s < 4 → Stored n k (.ok {target := none,tarindex := i,state := s}) (.ok {target := some t,tarindex := i,state := s})
  | short {i s : Nat} : n ≤ i → k ≤ i → s < 4 → Stored n k (.ok {target := none,tarindex := i,state := s}) (.error .refused)

theorem fill_none (n last : Nat) (write : List Byte → Run (List Byte)) : fill n none last write = .ok none := rfl

theorem fill_some (length : t.length = n) (last : Nat) (write : List Byte → Run (List Byte)) (inside : last < n → ∃ u,write t = .ok u ∧ u.length = n) :
    (∃ u,fill n (some t) last write = .ok (some u) ∧ u.length = n) ∨ n ≤ last ∧ fill n (some t) last write = .error .refused := by
  unfold fill
  by_cases less : last < n
  · obtain ⟨u,ran,same⟩ := inside less
    refine .inl ⟨u,?_,same⟩
    dsimp only
    rw [if_neg (by omega),ran]
    rfl
  refine .inr ⟨by omega,?_⟩
  dsimp only
  rw [if_pos (by omega)]

theorem store_agree (length : t.length = n) (small : s < 4) (pos : Nat) :
    Stored n k (store 0 {target := none,tarindex := k,state := s} pos) (store n {target := some t,tarindex := k,state := s} pos) := by
  have once : ∀ f : Byte → Byte,(∃ u,fill n (some t) k (fun t => alter t k f) = .ok (some u) ∧ u.length = n) ∨
      n ≤ k ∧ fill n (some t) k (fun t => alter t k f) = .error .refused := fun f =>
    fill_some length k _ fun less => by
      obtain ⟨u,first,same⟩ := alter_length (by omega : k < t.length) f
      exact ⟨u,first,by omega⟩
  have twice : ∀ f g : Byte → Byte,
      (∃ u,fill n (some t) (k + 1) (fun t => alter t k f >>= fun t => alter t (k + 1) g) = .ok (some u) ∧ u.length = n) ∨
      n ≤ k + 1 ∧ fill n (some t) (k + 1) (fun t => alter t k f >>= fun t => alter t (k + 1) g) = .error .refused := fun f g =>
    fill_some length (k + 1) _ fun less => by
      obtain ⟨u,first,same⟩ := alter_length (by omega : k < t.length) f
      obtain ⟨v,second,still⟩ := alter_length (by omega : k + 1 < u.length) g
      exact ⟨v,by rw [first,ok_bind,second],by omega⟩
  match s,small with
  | 0,_ =>
    rcases once fun _ => BitVec.ofNat 8 (pos <<< 2) with ⟨u,filled,same⟩ | ⟨full,filled⟩
    · simp only [store,fill_none,filled,ok_bind]
      exact .both same (le_refl k) (by omega)
    simp only [store,fill_none,filled,ok_bind,error_bind]
    exact .short full (le_refl k) (by omega)
  | 1,_ =>
    rcases twice (· ||| BitVec.ofNat 8 (pos >>> 4)) fun _ => BitVec.ofNat 8 ((pos &&& 0xf) <<< 4) with
      ⟨u,filled,same⟩ | ⟨full,filled⟩
    · simp only [store,fill_none,filled,ok_bind]
      exact .both same (le_succ k) (by omega)
    simp only [store,fill_none,filled,ok_bind,error_bind]
    exact .short full (le_succ k) (by omega)
  | 2,_ =>
    rcases twice (· ||| BitVec.ofNat 8 (pos >>> 2)) fun _ => BitVec.ofNat 8 ((pos &&& 0x3) <<< 6) with
      ⟨u,filled,same⟩ | ⟨full,filled⟩
    · simp only [store,fill_none,filled,ok_bind]
      exact .both same (le_succ k) (by omega)
    simp only [store,fill_none,filled,ok_bind,error_bind]
    exact .short full (le_succ k) (by omega)
  | 3,_ =>
    rcases once (· ||| BitVec.ofNat 8 pos) with ⟨u,filled,same⟩ | ⟨full,filled⟩
    · simp only [store,fill_none,filled,ok_bind]
      exact .both same (le_succ k) (by omega)
    simp only [store,fill_none,filled,ok_bind,error_bind]
    exact .short (le_succ_of_le full) (le_succ k) (by omega)

theorem store_sizing (small : s < 4) (pos : Nat) : ∃ i s',store 0 {target := none,tarindex := k,state := s} pos =
    .ok {target := none,tarindex := i,state := s'} ∧ k ≤ i ∧ s' < 4 := by
  have stored := @store_agree [] 0 k s rfl small pos
  generalize store 0 {target := none,tarindex := k,state := s} pos = sizing at stored ⊢
  generalize store 0 {target := some [],tarindex := k,state := s} pos = filling at stored
  cases stored with
  | both _ more small | short _ more small => exact ⟨_,_,rfl,more,small⟩

-- And after the whole of the first loop.
inductive Scanned (n k : Nat) : Run (Byte × List Byte × Decoder) → Run (Byte × List Byte × Decoder) → Prop where
  | both {ch : Byte} {src t : List Byte} {i s : Nat} : t.length = n → k ≤ i → s < 4 → (ch = pad64 → 0 ∈ src) → (ch ≠ pad64 → ∃ rest,src = char '<' :: rest) →
      Scanned n k (.ok (ch,src,{target := none,tarindex := i,state := s})) (.ok (ch,src,{target := some t,tarindex := i,state := s}))
  | short {ch : Byte} {src : List Byte} {i s : Nat} : n ≤ i → k ≤ i → s < 4 → (ch = pad64 → 0 ∈ src) → (ch ≠ pad64 → ∃ rest,src = char '<' :: rest) →
      Scanned n k (.ok (ch,src,{target := none,tarindex := i,state := s})) (.error .refused)
  | refused : Scanned n k (.error .refused) (.error .refused)

theorem Scanned.mono {j : Nat} {sizing filling : Run (Byte × List Byte × Decoder)} (scanned : Scanned n k sizing filling) (le : j ≤ k) : Scanned n j sizing filling := by
  cases scanned with
  | both length more small pad tag => exact .both length (le_trans le more) small pad tag
  | short full more small pad tag => exact .short full (le_trans le more) small pad tag
  | refused => exact .refused

theorem eof_iff : eof ch = true ↔ ch = 0 := beq_iff_eq

theorem mem_rest (mem : 0 ∈ ch :: src) (more : ¬eof ch = true) : 0 ∈ src := by
  rcases mem_cons.mp mem with here | rest
  · exact absurd (eof_iff.mpr here.symm) more
  · exact rest

section
variable (ended : 0 ∈ src)
include ended

theorem scan_sizing (small : s < 4) : scan 0 {target := none,tarindex := k,state := s} src = .error .refused ∨
    ∃ ch rest i s',scan 0 {target := none,tarindex := k,state := s} src = .ok (ch,rest,{target := none,tarindex := i,state := s'}) ∧
      k ≤ i ∧ s' < 4 ∧ (ch = pad64 → 0 ∈ rest) ∧ (ch ≠ pad64 → ∃ tail,rest = char '<' :: tail) := by
  induction src generalizing k s with
  | nil => cases ended
  | cons ch src ih =>
    unfold scan
    by_cases last : eof ch = true
    · exact .inl (if_pos last)
    have later := mem_rest ended last
    rw [if_neg last]
    split
    · exact ih later small
    by_cases tag : ch = char '<'
    · exact .inr ⟨ch,ch :: src,k,s,if_pos tag,le_refl k,small,fun pad => absurd (tag.symm.trans pad) (by decide),fun _ => ⟨src,by rw [tag]⟩⟩
    rw [if_neg tag]
    by_cases pad : ch = pad64
    · exact .inr ⟨ch,src,k,s,if_pos pad,le_refl k,small,fun _ => later,fun other => absurd pad other⟩
    rw [if_neg pad]
    cases base64.idxOf? ch with
    | none => exact .inl rfl
    | some pos =>
      obtain ⟨i,s₁,stored,more,small⟩ := @store_sizing k s small pos
      dsimp only
      rw [stored,ok_bind]
      rcases @ih i s₁ later small with refused | ⟨ch,rest,j,s₂,ran,further,facts⟩
      · exact .inl refused
      · exact .inr ⟨ch,rest,j,s₂,ran,le_trans more further,facts⟩

theorem scan_agree (length : t.length = n) (small : s < 4) :
    Scanned n k (scan 0 {target := none,tarindex := k,state := s} src) (scan n {target := some t,tarindex := k,state := s} src) := by
  induction src generalizing t k s with
  | nil => cases ended
  | cons ch src ih =>
    unfold scan
    by_cases last : eof ch = true
    · rw [if_pos last,if_pos last]
      exact .refused
    have later := mem_rest ended last
    rw [if_neg last,if_neg last]
    split
    · exact ih later length small
    split
    · next tag =>
      exact .both length (le_refl k) small (fun pad => absurd (tag.symm.trans pad) (by decide)) fun _ => ⟨src,by rw [tag]⟩
    split
    · next pad =>
      exact .both length (le_refl k) small (fun _ => later) fun other => absurd pad other
    cases base64.idxOf? ch with
    | none => exact .refused
    | some pos =>
      have stored := @store_agree t n k s length small pos
      dsimp only
      generalize store 0 {target := none,tarindex := k,state := s} pos = sizing at stored ⊢
      generalize store n {target := some t,tarindex := k,state := s} pos = filling at stored ⊢
      cases stored with
      | both still more small => exact (ih later still small).mono more
      | @short i s' full more small =>
        rw [ok_bind,error_bind]
        rcases @scan_sizing src i s' later small with refused | ⟨ch,rest,j,s'',ran,further,small,facts⟩
        · rw [refused]
          exact .refused
        rw [ran]
        exact .short (le_trans full further) (le_trans more further) small facts.1 facts.2

theorem onlySpace_total : onlySpace src = .error .refused ∨ ∃ rest,onlySpace src = .ok (char '<' :: rest) := by
  induction src with
  | nil => cases ended
  | cons ch src ih =>
    unfold onlySpace
    by_cases tag : ch = char '<'
    · exact .inr ⟨src,by rw [if_pos tag,tag]⟩
    rw [if_neg tag]
    by_cases last : eof ch = true
    · exact .inl (if_pos last)
    rw [if_neg last]
    by_cases space : isSpace ch = true
    · rw [if_pos space]
      exact ih (mem_rest ended last)
    · exact .inl (if_neg space)

theorem skipSpace_total : skipSpace src = .error .refused ∨
    ∃ ch rest,skipSpace src = .ok (ch,rest) ∧ (ch = char '<' ∨ 0 ∈ rest) := by
  induction src with
  | nil => cases ended
  | cons ch src ih =>
    unfold skipSpace
    by_cases tag : ch = char '<'
    · exact .inr ⟨ch,src,if_pos tag,.inl tag⟩
    rw [if_neg tag]
    by_cases last : eof ch = true
    · exact .inl (if_pos last)
    rw [if_neg last]
    by_cases space : isSpace ch = true
    · rw [if_pos space]
      exact ih (mem_rest ended last)
    · exact .inr ⟨ch,src,if_neg space,.inr (mem_rest ended last)⟩

theorem read_total : ∃ ch,read src = .ok ch := by
  cases src with
  | nil => cases ended
  | cons ch src => exact ⟨ch,rfl⟩
end

theorem finish_total (small : s < 4) (pad : ch = pad64 → 0 ∈ src) (tag : ch ≠ pad64 → ∃ rest,src = char '<' :: rest) :
    finish ch s src = .error .refused ∨ ∃ rest,finish ch s src = .ok (char '<' :: rest) := by
  unfold finish
  by_cases padded : ch = pad64
  · obtain ⟨next,first⟩ := read_total (pad padded)
    rw [if_pos padded,first,ok_bind]
    by_cases last : eof next = true
    · exact .inl (if_pos last)
    rw [if_neg last]
    match s,small with
    | 0,_ => exact .inl rfl
    | 1,_ => exact .inl rfl
    | 2,_ =>
      rcases skipSpace_total (pad padded) with refused | ⟨other,rest,skipped,found⟩
      · rw [refused]
        exact .inl rfl
      rw [skipped,ok_bind]
      dsimp only
      by_cases second : other ≠ pad64
      · exact .inl (if_pos second)
      have ended : 0 ∈ rest := found.resolve_left fun same => second (same ▸ by decide)
      obtain ⟨_,seen⟩ := read_total ended
      rw [if_neg second,seen,ok_bind]
      exact onlySpace_total ended
    | 3,_ => exact onlySpace_total (pad padded)
  rw [if_neg padded]
  by_cases part : s ≠ 0
  · exact .inl (if_pos part)
  obtain ⟨rest,rfl⟩ := tag padded
  exact .inr ⟨rest,if_neg part⟩

theorem decode_agree (ended : 0 ∈ src) :
    internalizeDecode none 0 src = .error .refused ∧ (∀ buf,internalizeDecode (some buf) buf.length src = .error .refused) ∨
    ∃ len rest,internalizeDecode none 0 src = .ok (len,char '<' :: rest,none) ∧ ∀ buf,
      (∃ filled,internalizeDecode (some buf) buf.length src = .ok (len,char '<' :: rest,some filled) ∧ filled.length = buf.length) ∨
      buf.length ≤ len ∧ internalizeDecode (some buf) buf.length src = .error .refused := by
  rcases @scan_sizing src 0 0 ended (by decide) with refused | ⟨ch,rest,len,s,ran,_,small,pad,tag⟩
  · refine .inl ⟨?_,fun buf => ?_⟩
    · rw [internalizeDecode,refused]
      rfl
    have scanned := @scan_agree buf src buf.length 0 0 ended rfl (by decide)
    rw [refused] at scanned
    unfold internalizeDecode
    generalize scan buf.length {target := some buf,tarindex := 0,state := 0} src = filling at scanned
    cases scanned with
    | refused => rfl
  have ends := finish_total small pad tag
  have both : ∀ buf,(∃ filled,scan buf.length {target := some buf,tarindex := 0,state := 0} src =
        .ok (ch,rest,{target := some filled,tarindex := len,state := s}) ∧ filled.length = buf.length) ∨
      buf.length ≤ len ∧ scan buf.length {target := some buf,tarindex := 0,state := 0} src = .error .refused := fun buf => by
    have scanned := @scan_agree buf src buf.length 0 0 ended rfl (by decide)
    rw [ran] at scanned
    generalize scan buf.length {target := some buf,tarindex := 0,state := 0} src = filling at scanned ⊢
    cases scanned with
    | both length => exact .inl ⟨_,rfl,length⟩
    | short full => exact .inr ⟨full,rfl⟩
  unfold internalizeDecode
  rw [ran,ok_bind]
  dsimp only
  rcases ends with refused | ⟨tail,finished⟩
  · refine .inl ⟨by rw [refused]; rfl,fun buf => ?_⟩
    rcases both buf with ⟨filled,scanned,_⟩ | ⟨_,scanned⟩
    · rw [scanned,ok_bind]
      rw [refused]
      rfl
    rw [scanned]
    rfl
  refine .inr ⟨len,tail,by rw [finished]; rfl,fun buf => ?_⟩
  rcases both buf with ⟨filled,scanned,length⟩ | ⟨full,scanned⟩
  · refine .inl ⟨filled,?_,length⟩
    rw [scanned,ok_bind]
    rw [finished]
    rfl
  · exact .inr ⟨full,by rw [scanned]; rfl⟩

def sextet (output : Byte) : Byte := base64.getD output.toNat 0

def encode : List Byte → List Byte
  | a :: b :: c :: src => sextet (output0 a) :: sextet (output1 a b) :: sextet (output2 b c) :: sextet (output3 c) :: encode src
  | [a,b] => [sextet (output0 a),sextet (output1 a b),sextet (output2 b 0),pad64]
  | [a] => [sextet (output0 a),sextet (output1 a 0),pad64,pad64]
  | [] => []

theorem low2 (x : Nat) : x &&& 0x3 = x % 4 := and_two_pow_sub_one_eq_mod x 2
theorem low4 (x : Nat) : x &&& 0xf = x % 16 := and_two_pow_sub_one_eq_mod x 4

theorem output0_eq (a : Byte) : (output0 a).toNat = a.toNat / 4 := by
  rw [output0,BitVec.toNat_ofNat,shiftRight_eq_div_pow]
  omega

theorem output1_eq (a b : Byte) : (output1 a b).toNat = a.toNat % 4 * 16 + b.toNat / 16 := by
  rw [output1,BitVec.toNat_ofNat,low2,shiftLeft_eq,shiftRight_eq_div_pow]
  omega

theorem output2_eq (b c : Byte) : (output2 b c).toNat = b.toNat % 16 * 4 + c.toNat / 64 := by
  rw [output2,BitVec.toNat_ofNat,low4,shiftLeft_eq,shiftRight_eq_div_pow]
  omega

theorem output3_eq (c : Byte) : (output3 c).toNat = c.toNat % 64 := by
  exact and_two_pow_sub_one_eq_mod c.toNat 6

theorem output_lt (a b c : Byte) : (output0 a).toNat < 64 ∧ (output1 a b).toNat < 64 ∧ (output2 b c).toNat < 64 ∧ (output3 c).toNat < 64 := by
  rw [output0_eq,output1_eq,output2_eq,output3_eq]
  omega

theorem join_first : ∀ a : Byte,BitVec.ofNat 8 ((a.toNat / 4) <<< 2) ||| BitVec.ofNat 8 (a.toNat % 4) = a := by decide
theorem join_second : ∀ b : Byte,BitVec.ofNat 8 ((b.toNat / 16) <<< 4) ||| BitVec.ofNat 8 (b.toNat % 16) = b := by decide
theorem join_third : ∀ c : Byte,BitVec.ofNat 8 ((c.toNat / 64) <<< 6) ||| BitVec.ofNat 8 (c.toNat % 64) = c := by decide

theorem byte_first (a b : Byte) : BitVec.ofNat 8 ((output0 a).toNat <<< 2) ||| BitVec.ofNat 8 ((output1 a b).toNat >>> 4) = a := by
  have high : (output1 a b).toNat >>> 4 = a.toNat % 4 := by
    rw [output1_eq,shiftRight_eq_div_pow]
    omega
  rw [high,output0_eq]
  exact join_first a

theorem byte_second (a b c : Byte) : BitVec.ofNat 8 (((output1 a b).toNat &&& 0xf) <<< 4) ||| BitVec.ofNat 8 ((output2 b c).toNat >>> 2) = b := by
  have low : (output1 a b).toNat &&& 0xf = b.toNat / 16 := by
    rw [low4,output1_eq]
    omega
  have high : (output2 b c).toNat >>> 2 = b.toNat % 16 := by
    rw [output2_eq,shiftRight_eq_div_pow]
    omega
  rw [low,high]
  exact join_second b

theorem byte_third (b c : Byte) : BitVec.ofNat 8 (((output2 b c).toNat &&& 0x3) <<< 6) ||| BitVec.ofNat 8 (output3 c).toNat = c := by
  have low : (output2 b c).toNat &&& 0x3 = c.toNat / 64 := by
    rw [low2,output2_eq]
    omega
  rw [low,output3_eq]
  exact join_third c

theorem table_exact : ∀ i < 64,base64.idxOf? (base64.getD i 0) = some i ∧ eof (base64.getD i 0) = false ∧ isSpace (base64.getD i 0) = false ∧
    base64.getD i 0 ≠ char '<' ∧ base64.getD i 0 ≠ pad64 := by decide

theorem scan_sextet {output : Byte} (lt : output.toNat < 64) : scan n d (sextet output :: src) = store n d output.toNat >>= fun d => scan n d src := by
  obtain ⟨place,more,space,tag,pad⟩ := table_exact output.toNat lt
  unfold sextet
  rw [scan,more,space,if_neg Bool.false_ne_true,if_neg Bool.false_ne_true,if_neg tag,if_neg pad,place]

theorem scan_first (a b : Byte) (x y : Byte) (room : done.length + 1 < n) :
    scan n {target := some (done ++ x :: y :: rest),tarindex := done.length,state := 0} (sextet (output0 a) :: sextet (output1 a b) :: src) =
      scan n {target := some (done ++ a :: BitVec.ofNat 8 (((output1 a b).toNat &&& 0xf) <<< 4) :: rest),tarindex := done.length + 1,state := 2} src := by
  obtain ⟨lt0,lt1,_,_⟩ := output_lt a b 0
  rw [scan_sextet lt0]
  simp only [store,fill]
  rw [if_neg (by omega),alter_at]
  simp only [Except.map_ok,ok_bind]
  rw [scan_sextet lt1]
  simp only [store,fill]
  rw [if_neg (by omega),alter_at,ok_bind,alter_next,byte_first]
  rfl

theorem scan_second (a b c : Byte) (x : Byte) (room : done.length + 1 < n) :
    scan n {target := some (done ++ BitVec.ofNat 8 (((output1 a b).toNat &&& 0xf) <<< 4) :: x :: rest),tarindex := done.length,state := 2}
        (sextet (output2 b c) :: src) =
      scan n {target := some (done ++ b :: BitVec.ofNat 8 (((output2 b c).toNat &&& 0x3) <<< 6) :: rest),tarindex := done.length + 1,state := 3} src := by
  rw [scan_sextet (output_lt a b c).2.2.1]
  simp only [store,fill]
  rw [if_neg (by omega),alter_at,ok_bind,alter_next,byte_second]
  rfl

theorem scan_third (b c : Byte) (room : done.length < n) :
    scan n {target := some (done ++ BitVec.ofNat 8 (((output2 b c).toNat &&& 0x3) <<< 6) :: rest),tarindex := done.length,state := 3}
        (sextet (output3 c) :: src) =
      scan n {target := some (done ++ c :: rest),tarindex := done.length + 1,state := 0} src := by
  rw [scan_sextet (output_lt 0 b c).2.2.2]
  simp only [store,fill]
  rw [if_neg (by omega),alter_at,byte_third]
  rfl

theorem scan_group (a b c : Byte) (x y z : Byte) (room : done.length + 2 < n) :
    scan n {target := some (done ++ x :: y :: z :: rest),tarindex := done.length,state := 0}
        (sextet (output0 a) :: sextet (output1 a b) :: sextet (output2 b c) :: sextet (output3 c) :: src) =
      scan n {target := some (done ++ a :: b :: c :: rest),tarindex := done.length + 3,state := 0} src := by
  have one : ∀ (w : Byte) (l : List Byte),done ++ a :: w :: l = (done ++ [a]) ++ w :: l := fun w l => by simp
  have two : ∀ (w : Byte) (l : List Byte),(done ++ [a]) ++ b :: w :: l = (done ++ [a,b]) ++ w :: l := fun w l => by simp
  have length1 : done.length + 1 = (done ++ [a]).length := by simp
  have length2 : (done ++ [a]).length + 1 = (done ++ [a,b]).length := by simp
  have length3 : (done ++ [a,b]).length + 1 = done.length + 3 := by simp
  rw [scan_first a b x y (by omega),one,length1,scan_second a b c z (by simp; omega),two,length2,scan_third b c (by simp; omega),length3,← two,← one]

theorem scan_pad (src : List Byte) : scan n d (pad64 :: src) = .ok (pad64,src,d) := by
  rw [scan,if_neg (by decide),if_neg (by decide),if_neg (by decide),if_pos rfl]

theorem scan_tag (src : List Byte) : scan n d (char '<' :: src) = .ok (char '<',char '<' :: src,d) := by
  rw [scan,if_neg (by decide),if_neg (by decide),if_pos rfl]

theorem scan_encode (bytes : List Byte) (tail free : List Byte) (done : List Byte) (length : free.length = bytes.length + 1)
    (room : n = done.length + free.length) : ∃ ch src s last,
      scan n {target := some (done ++ free),tarindex := done.length,state := 0} (encode bytes ++ char '<' :: tail) =
        .ok (ch,src,{target := some (done ++ bytes ++ [last]),tarindex := done.length + bytes.length,state := s}) ∧
      finish ch s src = .ok (char '<' :: tail) := by
  induction bytes using encode.induct generalizing free done with
  | case1 a b c bytes ih =>
    obtain ⟨x,y,z,free,rfl⟩ : ∃ x y z l,free = x :: y :: z :: l := by
      match free,length with
      | x :: y :: z :: l,_ => exact ⟨x,y,z,l,rfl⟩
    simp only [length_cons] at length room
    obtain ⟨ch,src,s,last,ran,finished⟩ := ih free (done ++ [a,b,c]) (by omega) (by simp; omega)
    refine ⟨ch,src,s,last,?_,finished⟩
    rw [encode]
    simp only [cons_append]
    rw [scan_group a b c x y z (by omega)]
    have count : done.length + (a :: b :: c :: bytes).length = (done ++ [a,b,c]).length + bytes.length := by
      simp
      omega
    rw [count]
    simpa using ran
  | case2 a b =>
    obtain ⟨x,y,z,rfl⟩ : ∃ x y z,free = [x,y,z] := by
      match free,length with
      | [x,y,z],_ => exact ⟨x,y,z,rfl⟩
    simp only [length_cons,length_nil] at length room
    have one : ∀ l,done ++ a :: l = (done ++ [a]) ++ l := fun l => by simp
    have length1 : done.length + 1 = (done ++ [a]).length := by simp
    refine ⟨pad64,char '<' :: tail,3,BitVec.ofNat 8 (((output2 b 0).toNat &&& 0x3) <<< 6),?_,rfl⟩
    rw [encode]
    simp only [cons_append,nil_append]
    rw [scan_first a b x y (by omega),one,length1,scan_second a b 0 z (by simp; omega),scan_pad]
    simp
  | case3 a =>
    obtain ⟨x,y,rfl⟩ : ∃ x y,free = [x,y] := by
      match free,length with
      | [x,y],_ => exact ⟨x,y,rfl⟩
    simp only [length_cons,length_nil] at length room
    refine ⟨pad64,pad64 :: char '<' :: tail,2,BitVec.ofNat 8 (((output1 a 0).toNat &&& 0xf) <<< 4),?_,rfl⟩
    rw [encode]
    simp only [cons_append,nil_append]
    rw [scan_first a 0 x y (by omega),scan_pad]
    simp
  | case4 =>
    obtain ⟨x,rfl⟩ : ∃ x,free = [x] := by
      match free,length with
      | [x],_ => exact ⟨x,rfl⟩
    refine ⟨char '<',char '<' :: tail,0,x,?_,rfl⟩
    rw [encode,nil_append,scan_tag]
    simp

theorem lookup_ok {output : Byte} (lt : output.toNat < 64) : lookup output = .ok (sextet output) := if_pos lt

theorem appendCstring_append (ctx : Context) (p q : List Byte) :
    appendCstring realloc ctx (p ++ q) = appendCstring realloc ctx p >>= fun ctx => appendCstring realloc ctx q := by
  induction p generalizing ctx with
  | nil => rfl
  | cons c p ih =>
    rw [cons_append,appendCstring,appendCstring]
    cases appendChar realloc ctx c with
    | error stop => rfl
    | ok ctx => exact ih ctx

theorem appendChar_last (ctx : Context) (c : Byte) : (appendChar realloc ctx c >>= fun ctx => .ok ctx) = appendChar realloc ctx c := by
  cases appendChar realloc ctx c with
  | error stop => rfl
  | ok ctx => rfl

theorem appendCstring_spec (ctx : Context) (cp : List Byte) :
    appendCstring realloc ctx cp = .error .refused ∨ ∃ next,appendCstring realloc ctx cp = .ok next ∧ next.buf = ctx.buf ++ cp := by
  induction cp generalizing ctx with
  | nil => exact .inr ⟨ctx,rfl,(append_nil _).symm⟩
  | cons c cp ih =>
    rw [appendCstring]
    unfold appendChar
    split
    · split
      · rcases ih _ with refused | ⟨next,ran,text⟩
        · exact .inl refused
        · exact .inr ⟨next,ran,by rw [text,append_assoc]; rfl⟩
      · exact .inl rfl
    rcases ih _ with refused | ⟨next,ran,text⟩
    · exact .inl refused
    · exact .inr ⟨next,ran,by rw [text,append_assoc]; rfl⟩

theorem externalizeLoop_eq (ctx : Context) (bytes : List Byte) : externalizeLoop realloc ctx bytes = appendCstring realloc ctx (encode bytes) := by
  induction bytes using encode.induct generalizing ctx with
  | case1 a b c bytes ih =>
    obtain ⟨lt0,lt1,lt2,lt3⟩ := output_lt a b c
    simp only [externalizeLoop,encode,appendCstring,lookup_ok lt0,lookup_ok lt1,lookup_ok lt2,lookup_ok lt3,ok_bind,ih]
  | case2 a b =>
    obtain ⟨lt0,lt1,lt2,_⟩ := output_lt a b 0
    simp only [externalizeLoop,encode,appendCstring,lookup_ok lt0,lookup_ok lt1,lookup_ok lt2,ok_bind,appendChar_last]
  | case3 a =>
    obtain ⟨lt0,lt1,_,_⟩ := output_lt a 0 0
    simp only [externalizeLoop,encode,appendCstring,lookup_ok lt0,lookup_ok lt1,ok_bind,appendChar_last]
  | case4 => rfl

def opening : List Byte := char '<' :: (dataTag ++ [char '>'])
def closing : List Byte := char '<' :: char '/' :: (dataTag ++ [char '>',char '\n'])

theorem startTag_eq (ctx : Context) : startTag realloc ctx dataTag = appendCstring realloc ctx (replicate ctx.depth (char '\t') ++ opening) := by
  rw [appendCstring_append,opening]
  simp only [startTag,appendCstring,appendCstring_append,appendChar_last]

theorem endTag_eq (ctx : Context) : endTag realloc ctx dataTag = appendCstring realloc ctx closing := by
  simp only [endTag,closing,appendCstring,appendCstring_append,appendChar_last]

theorem externalize_eq (ctx : Context) {bytes : List Byte} (some : bytes ≠ []) : externalize realloc ctx bytes =
    appendCstring realloc ctx (replicate ctx.depth (char '\t') ++ opening ++ encode bytes ++ closing) := by
  have length : bytes.length ≠ 0 := fun zero => some (length_eq_zero_iff.mp zero)
  rw [externalize,if_neg length,startTag_eq,appendCstring_append ctx (replicate ctx.depth (char '\t') ++ opening ++ encode bytes),
    appendCstring_append ctx (replicate ctx.depth (char '\t') ++ opening)]
  cases appendCstring realloc ctx (replicate ctx.depth (char '\t') ++ opening) with
  | error stop => rfl
  | ok ctx =>
    rw [ok_bind,ok_bind,externalizeLoop_eq]
    cases appendCstring realloc ctx (encode bytes) with
    | error stop => rfl
    | ok ctx => exact endTag_eq ctx

-- What is written is read back, and sizing and filling agree on every text.
theorem data_text : (∀ (bytes : List Byte),bytes ≠ [] → ∀ realloc ctx,externalize realloc ctx bytes = .error .refused ∨
      ∃ next text,externalize realloc ctx bytes = .ok next ∧
        next.buf = ctx.buf ++ List.replicate ctx.depth (char '\t') ++ opening ++ text ++ closing ∧
        ∀ tail,0 ∈ tail → internalizeDecode none 0 (text ++ closing ++ tail) = .ok (bytes.length,closing ++ tail,none) ∧
          ∀ buf,buf.length = bytes.length + 1 → ∃ last,
            internalizeDecode (some buf) (bytes.length + 1) (text ++ closing ++ tail) = .ok (bytes.length,closing ++ tail,some (bytes ++ [last]))) ∧
    ∀ src : List Byte,0 ∈ src →
      internalizeDecode none 0 src = .error .refused ∧ (∀ buf,internalizeDecode (some buf) buf.length src = .error .refused) ∨
      ∃ len rest,internalizeDecode none 0 src = .ok (len,rest,none) ∧ ∀ buf,buf.length = len + 1 →
        ∃ filled,internalizeDecode (some buf) (len + 1) src = .ok (len,rest,some filled) ∧ filled.length = len + 1 := by
  refine ⟨fun bytes nonempty realloc ctx => ?_,fun src ended => ?_⟩
  · rw [externalize_eq ctx nonempty]
    rcases @appendCstring_spec realloc ctx (replicate ctx.depth (char '\t') ++ opening ++ encode bytes ++ closing) with refused | ⟨next,ran,text⟩
    · exact .inl refused
    refine .inr ⟨next,encode bytes,ran,by rw [text]; simp only [append_assoc],fun tail ended => ?_⟩
    have filled : ∀ buf,buf.length = bytes.length + 1 → ∃ last,
        internalizeDecode (some buf) (bytes.length + 1) (encode bytes ++ closing ++ tail) = .ok (bytes.length,closing ++ tail,some (bytes ++ [last])) := by
      intro buf length
      obtain ⟨ch,src,s,last,ran,finished⟩ := @scan_encode (bytes.length + 1) bytes (char '/' :: (dataTag ++ [char '>',char '\n']) ++ tail) buf [] length
        (by rw [length]; simp)
      refine ⟨last,?_⟩
      rw [append_assoc]
      unfold internalizeDecode
      rw [show closing ++ tail = char '<' :: (char '/' :: (dataTag ++ [char '>',char '\n']) ++ tail) from rfl]
      simp only [nil_append,length_nil,zero_add] at ran
      rw [ran,ok_bind]
      dsimp only
      rw [finished]
      rfl
    refine ⟨?_,filled⟩
    obtain ⟨last,ran⟩ := filled (replicate (bytes.length + 1) 0) length_replicate
    rcases @decode_agree (encode bytes ++ closing ++ tail) (mem_append_right _ ended) with ⟨_,refused⟩ | ⟨len,rest,sized,both⟩
    · have := refused (replicate (bytes.length + 1) 0)
      rw [length_replicate,ran] at this
      cases this
    rcases both (replicate (bytes.length + 1) 0) with ⟨_,same,_⟩ | ⟨_,refused⟩
    · rw [length_replicate,ran] at same
      obtain ⟨rfl,rest,_⟩ := Prod.mk.inj (Except.ok.inj same) |>.imp_right Prod.mk.inj
      rw [sized,rest]
    · rw [length_replicate,ran] at refused
      cases refused
  · rcases decode_agree ended with refused | ⟨len,rest,sized,both⟩
    · exact .inl refused
    refine .inr ⟨len,_,sized,fun buf length => ?_⟩
    rcases both buf with ⟨filled,ran,same⟩ | ⟨short,_⟩
    · rw [length] at ran same
      exact ⟨filled,ran,same⟩
    · omega

theorem data_text_two : (∃ next text,externalize (fun _ => true) {buf := [],capacity := 256,depth := 0,some := by decide,fits := by decide} [0x66,0x6f] =
      .ok next ∧ next.buf = opening ++ text ++ closing) ∧
    ∃ len rest,internalizeDecode none 0 (['Z',' ','m','8','=','<'].map char ++ [0]) = .ok (len,rest,none) ∧
      ∃ filled,internalizeDecode (some (replicate (len + 1) 0)) (len + 1) (['Z',' ','m','8','=','<'].map char ++ [0]) = .ok (len,rest,some filled) := by
  refine ⟨?_,?_⟩
  · rcases data_text.1 [0x66,0x6f] (by decide) (fun _ => true) {buf := [],capacity := 256,depth := 0,some := by decide,fits := by decide} with
      refused | ⟨next,text,ran,whole,_⟩
    · cases refused
    · exact ⟨next,text,ran,whole⟩
  rcases data_text.2 (['Z',' ','m','8','=','<'].map char ++ [0]) (by decide) with ⟨refused,_⟩ | ⟨len,rest,sized,both⟩
  · cases refused
  · obtain ⟨filled,ran,_⟩ := both (replicate (len + 1) 0) length_replicate
    exact ⟨len,rest,sized,filled,ran⟩
end NetbsdAvr32.PropData
