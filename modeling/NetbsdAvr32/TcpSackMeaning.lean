import NetbsdAvr32.TcpSackExact

-- The holes as the bytes that the peer has not, and what an option makes of them.
namespace NetbsdAvr32.TcpSack
open Serial List Next Int

def Missing (u : Seq) (l : List Sackhole) (x : Int) : Prop := ∃ h ∈ l,h.Has u x
def Sacked (u : Seq) (blocks : List Sackblk) (x : Int) : Prop := ∃ b ∈ blocks,b.Has u x
def Exposed (u : Seq) (last : Int) (blocks : List Sackblk) (x : Int) : Prop := last ≤ x ∧ ∃ b ∈ blocks,x < diff b.right u

def Left (u : Seq) (l : List Sackhole) (last : Int) (blocks : List Sackblk) (x : Int) : Prop :=
  (Missing u l x ∨ Exposed u last blocks x) ∧ ¬Sacked u blocks x

def Single (u : Seq) (b : Sackblk) (l : List Sackhole) : Prop := l.Pairwise fun g h => ¬(Met u b g ∧ Met u b h)

-- As long as a block follows, the ones before it leave something.
def Lasting (u : Seq) (l : List Sackhole) (last : Int) (blocks : List Sackblk) : Prop :=
  ∀ done b later,blocks = done ++ b :: later → ∃ x,Left u l last done x

structure Tidy (u : Seq) (a : Int) (tp : Tcpcb) (blocks : List Sackblk) : Prop where
  single : ∀ b ∈ blocks,Single u b tp.sndHoles
  lasting : tp.sndHoles ≠ [] → Lasting u tp.sndHoles (diff tp.rcvLastsack u) blocks
  fresh : tp.sndHoles = [] → ∀ x,a ≤ x → x < diff tp.rcvLastsack u → (∃ b ∈ blocks,x < diff b.right u) → Sacked u blocks x

variable {lim : Limits} {u thAck : Seq} {a last last' top x : Int} {h cur : Sackhole} {l l' before after left right rest q r : List Sackhole}
variable {tp tp' : Tcpcb} {b c : Sackblk} {p p' : Pass} {th : Tcphdr} {blocks : List Sackblk} {short : Bool}

theorem missing_append : Missing u (l ++ l') x ↔ Missing u l x ∨ Missing u l' x := by
  simp only [Missing,mem_append,or_and_right,exists_or]

theorem missing_cons : Missing u (h :: l) x ↔ h.Has u x ∨ Missing u l x := by simp [Missing]
theorem sacked_cons : Sacked u (b :: blocks) x ↔ b.Has u x ∨ Sacked u blocks x := by simp [Sacked]

theorem exposed_cons : Exposed u last (b :: blocks) x ↔ last ≤ x ∧ x < diff b.right u ∨ Exposed u last blocks x := by
  simp [Exposed,and_or_left]

theorem left_cons (step : Missing u l' x ↔ (Missing u l x ∨ last ≤ x ∧ x < diff b.right u) ∧ ¬b.Has u x) (next : last' = max last (diff b.right u)) :
    Left u l' last' blocks x ↔ Left u l last (b :: blocks) x := by
  unfold Left
  rw [step,sacked_cons,exposed_cons]
  have outside : diff b.right u ≤ x → ¬b.Has u x := fun beyond has => by
    have := has.2
    omega
  constructor
  · rintro ⟨(⟨held,out⟩ | ⟨beyond,below⟩),none⟩
    · exact ⟨held.imp id .inl,fun some => some.elim out none⟩
    · exact ⟨.inr (.inr ⟨by omega,below⟩),fun some => some.elim (outside (by omega)) none⟩
  rintro ⟨held,none⟩
  refine ⟨?_,fun some => none (.inr some)⟩
  have out : ¬b.Has u x := fun has => none (.inl has)
  rcases held with held | gap | ⟨behind,below⟩
  · exact .inl ⟨.inl held,out⟩
  · exact .inl ⟨.inr gap,out⟩
  by_cases less : x < diff b.right u
  · exact .inl ⟨.inr ⟨behind,less⟩,out⟩
  · exact .inr ⟨by omega,below⟩

theorem unmet_has (unmet : ¬Met u b h) (has : h.Has u x) : ¬b.Has u x := fun inside =>
  unmet ⟨lt_of_le_of_lt inside.1 has.2,lt_of_le_of_lt has.1 inside.2⟩

theorem unmet_before (ends : diff h.stop u ≤ diff b.left u) : ¬Met u b h := fun met => by
  have := met.1
  omega

theorem unmet_behind (begins : diff b.right u ≤ diff h.start u) : ¬Met u b h := fun met => by
  have := met.2
  omega

theorem Cut.outside (cut : Cut u top b cur left right) (mem : h ∈ left ++ right) : ¬Met u b h := by
  rcases mem_append.mp mem with here | there
  · exact unmet_before (cut.leftEnd h here)
  · exact unmet_behind (cut.rightStart h there)

theorem Piece.has (piece : Piece u cur h) (has : h.Has u x) : cur.Has u x := ⟨le_trans piece.low has.1,lt_of_lt_of_le has.2 piece.high⟩

theorem Cut.missing (cut : Cut u top b cur left right) : Missing u (left ++ right) x ↔ cur.Has u x ∧ ¬b.Has u x := by
  constructor
  · rintro ⟨h,mem,has⟩
    exact ⟨(cut.each h mem).has has,unmet_has (cut.outside mem) has⟩
  rintro ⟨has,out⟩
  exact cut.rest x has out

theorem missing_unmet (unmet : ∀ h ∈ l,¬Met u b h) : Missing u l x ↔ Missing u l x ∧ ¬b.Has u x := by
  refine ⟨fun missing => ⟨missing,?_⟩,And.left⟩
  obtain ⟨h,mem,has⟩ := missing
  exact unmet_has (unmet h mem) has

theorem Walked.missing (walked : Walked u top b before after q r) (passed : ∀ h ∈ before,diff h.stop u ≤ diff b.left u) (single : Single u b (before ++ after)) :
    Missing u (q ++ r) x ↔ Missing u (before ++ after) x ∧ ¬b.Has u x := by
  cases walked with
  | between skipped split all beyond =>
    rw [append_assoc,← split]
    refine missing_unmet fun h mem => ?_
    rw [split] at mem
    simp only [mem_append] at mem
    rcases mem with mem | mem | mem
    · exact unmet_before (passed h mem)
    · exact unmet_before (all h mem)
    · exact unmet_behind (beyond h mem)
  | @cut skipped rest left right cur split all cut =>
    have alone : ∀ h ∈ rest,¬Met u b h := by
      intro h mem met
      rw [split] at single
      obtain ⟨_,single,_⟩ := pairwise_append.mp single
      obtain ⟨_,single,_⟩ := pairwise_append.mp single
      exact (pairwise_cons.mp single).1 h mem ⟨cut.met,met⟩
    rw [split]
    have pieces := @Cut.missing u top x cur left right b cut
    simp only [missing_append,missing_cons] at pieces ⊢
    rw [missing_unmet fun h mem => unmet_before (passed h mem),missing_unmet fun h mem => unmet_before (all h mem),missing_unmet alone]
    tauto

structure Ready (u : Seq) (p : Pass) (blocks : List Sackblk) : Prop where
  passed : ∀ b ∈ blocks,∀ h ∈ p.before,diff h.stop u ≤ diff b.left u
  high : ∀ h ∈ p.before ++ p.after,diff h.stop u ≤ diff p.tp.rcvLastsack u

-- Blocks with bytes in them, in the order of their left edges.
structure InLine (u : Seq) (blocks : List Sackblk) : Prop where
  each : ∀ b ∈ blocks,diff b.left u < diff b.right u
  sorted : blocks.Pairwise fun b c => diff b.left u ≤ diff c.left u

theorem InLine.tail (line : InLine u (b :: blocks)) : InLine u blocks :=
  ⟨fun c mem => line.each c (mem_cons_of_mem _ mem),(pairwise_cons.mp line.sorted).2⟩

theorem Effect.missing (effect : Effect u thAck b p (.go p')) (some_ : p.before ++ p.after ≠ []) (passed : ∀ h ∈ p.before,diff h.stop u ≤ diff b.left u)
    (single : Single u b (p.before ++ p.after)) (order : diff b.left u < diff b.right u) :
    (∀ x,Missing u (p'.before ++ p'.after) x ↔
      (Missing u (p.before ++ p.after) x ∨ diff p.tp.rcvLastsack u ≤ x ∧ x < diff b.right u) ∧ ¬b.Has u x) ∧
      diff p'.tp.rcvLastsack u = max (diff p.tp.rcvLastsack u) (diff b.right u) := by
  cases effect with
  | first empty => exact (some_ empty).elim
  | @walked tp₁ before after next _ walked last appended =>
    have missing := fun x => @Walked.missing u _ x _ _ _ _ b walked passed single
    generalize q : go p' = next at appended
    cases appended with
    | none touches last' =>
      cases q
      rw [last] at touches last'
      refine ⟨fun x => ?_,last'⟩
      rw [missing x,or_and_right]
      exact ⟨.inl,fun held => held.elim id fun ⟨gap,out⟩ => (out ⟨by omega,gap.2⟩).elim⟩
    | gap behind last' =>
      cases q
      dsimp only at behind last' ⊢
      rw [last] at behind ⊢
      refine ⟨fun x => ?_,by omega⟩
      rw [missing_append,missing x,or_and_right,missing_cons]
      refine or_congr_right ⟨fun held => ?_,fun ⟨gap,out⟩ => .inl ⟨gap.1,?_⟩⟩
      · rcases held with has | ⟨_,none,_⟩
        · obtain ⟨one,two⟩ := has
          dsimp only at one two
          exact ⟨⟨one,by omega⟩,fun inside => by have := inside.1; omega⟩
        · cases none
      by_contra inside
      dsimp only at inside
      exact out ⟨by omega,gap.2⟩
    | short => cases q

theorem Walked.passed {q r : List Sackhole} (walked : Walked u top b before after q r) (passed : ∀ h ∈ before,diff h.stop u ≤ diff b.left u) :
    ∀ h ∈ q,diff h.stop u ≤ diff b.left u := by
  cases walked with
  | between skipped split all =>
    intro h mem
    exact (mem_append.mp mem).elim (passed h) (all h)
  | cut skipped split all cut =>
    intro h mem
    rcases mem_append.mp mem with mem | mem
    · exact passed h mem
    · exact (mem_append.mp mem).elim (all h) (cut.leftEnd h)

theorem Walked.within {q r : List Sackhole} (walked : Walked u top b before after q r) :
    ∀ h ∈ q ++ r,h ∈ before ++ after ∨ ∃ g ∈ before ++ after,Piece u g h := by
  cases walked with
  | between skipped split =>
    intro h mem
    rw [split,← append_assoc]
    exact .inl mem
  | @cut skipped rest left right cur split _ cut =>
    intro h mem
    rw [split]
    have same : before ++ (skipped ++ left) ++ (right ++ rest) = before ++ skipped ++ (left ++ right) ++ rest := by simp
    rw [same] at mem
    rcases mem_append.mp mem with mem | mem
    · rcases mem_append.mp mem with mem | mem
      · left
        rcases mem_append.mp mem with mem | mem
        · simp [mem]
        · simp [mem]
      · exact .inr ⟨cur,by simp,cut.each h mem⟩
    left
    simp [mem]

theorem Effect.ready (effect : Effect u thAck b p (.go p')) (ready : Ready u p (b :: blocks)) (line : InLine u (b :: blocks)) : Ready u p' blocks := by
  obtain ⟨later,_⟩ := pairwise_cons.mp line.sorted
  have order := line.each b mem_cons_self
  cases effect with
  | first empty last =>
    refine ⟨fun c _ h none => absurd none not_mem_nil,fun h mem => ?_⟩
    rcases mem_singleton.mp mem with rfl
    dsimp only
    rw [last]
    omega
  | @walked tp₁ before after next _ walked last appended =>
    have passed := walked.passed (ready.passed b mem_cons_self)
    have high : ∀ h ∈ before ++ after,diff h.stop u ≤ diff p.tp.rcvLastsack u := by
      intro h mem
      rcases walked.within h mem with old | ⟨g,old,piece⟩
      · exact ready.high h old
      · exact le_trans piece.high (ready.high g old)
    generalize q : go p' = next at appended
    cases appended with
    | none touches last' =>
      cases q
      rw [last] at last'
      refine ⟨fun c mem h here => le_trans (passed h here) (later c mem),fun h mem => ?_⟩
      have := high h mem
      dsimp only
      omega
    | gap behind last' =>
      cases q
      rw [last] at behind
      refine ⟨fun c mem h here => ?_,fun h mem => ?_⟩
      · have := high h here
        have := later c mem
        omega
      rcases mem_append.mp mem with mem | mem
      · have := high h mem
        dsimp only
        omega
      rcases mem_singleton.mp mem with rfl
      dsimp only
      omega
    | short => cases q

theorem Piece.met (piece : Piece u cur h) (met : Met u c h) : Met u c cur := by
  have low := piece.low
  have high := piece.high
  obtain ⟨one,two⟩ := met
  exact ⟨by omega,by omega⟩

theorem Cut.single (cut : Cut u top b cur left right) (later : diff b.left u ≤ diff c.left u) (single : Single u c (before ++ cur :: rest)) :
    Single u c (before ++ (left ++ right ++ rest)) := by
  obtain ⟨front,back,across⟩ := pairwise_append.mp single
  obtain ⟨behind,back⟩ := pairwise_cons.mp back
  have passed : ∀ h ∈ left,¬Met u c h := fun h mem => unmet_before (le_trans (cut.leftEnd h mem) later)
  have rights : right.Pairwise fun g h => ¬(Met u c g ∧ Met u c h) := by
    have one := cut.one
    match right,one with
    | [],_ => exact .nil
    | [h],_ => exact pairwise_singleton _ _
  refine pairwise_append.mpr ⟨front,pairwise_append.mpr ⟨pairwise_append.mpr ⟨?_,rights,?_⟩,back,?_⟩,?_⟩
  · exact pairwise_of_forall_mem_list fun g mem h _ both => passed g mem both.1
  · exact fun g mem h _ both => passed g mem both.1
  · exact fun g mem h mem' both => behind h mem' ⟨(cut.each g mem).met both.1,both.2⟩
  intro g mem h mem' both
  rcases mem_append.mp mem' with here | there
  · exact across g mem cur mem_cons_self ⟨both.1,(cut.each h here).met both.2⟩
  · exact across g mem h (mem_cons_of_mem _ there) both

theorem Effect.single (effect : Effect u thAck b p (.go p')) (later : diff b.left u ≤ diff c.left u) (single : Single u c (p.before ++ p.after)) :
    Single u c (p'.before ++ p'.after) := by
  cases effect with
  | first => exact pairwise_singleton _ _
  | @walked tp₁ before after next _ walked _ appended =>
    have held : Single u c (before ++ after) := by
      cases walked with
      | between skipped split =>
        rw [append_assoc,← split]
        exact single
      | cut skipped split _ cut =>
        rw [split,← append_assoc] at single
        simpa using cut.single later single
    generalize q : go p' = next at appended
    cases appended with
    | none =>
      cases q
      exact held
    | gap =>
      cases q
      refine pairwise_append.mpr ⟨held,pairwise_singleton _ _,fun g _ h mem both => ?_⟩
      rcases mem_singleton.mp mem with rfl
      exact unmet_before later both.2
    | short => cases q

theorem Walked.keeps {q r : List Sackhole} (walked : Walked u top b before after q r) (mem : h ∈ before ++ after) (unmet : ¬Met u b h) : h ∈ q ++ r := by
  cases walked with
  | between skipped split =>
    rwa [append_assoc,← split]
  | cut skipped split _ cut =>
    rw [split] at mem
    simp only [mem_append,mem_cons] at mem ⊢
    rcases mem with mem | mem | rfl | mem
    · exact .inl (.inl mem)
    · exact .inl (.inr (.inl mem))
    · exact (unmet cut.met).elim
    · exact .inr (.inr mem)

theorem Effect.keeps (effect : Effect u thAck b p (.go p')) (mem : h ∈ p.before ++ p.after) (unmet : ¬Met u b h) : h ∈ p'.before ++ p'.after := by
  cases effect with
  | first empty =>
    rw [empty] at mem
    cases mem
  | @walked tp₁ before after next _ walked _ appended =>
    have held := walked.keeps mem unmet
    generalize q : go p' = next at appended
    cases appended with
    | none =>
      cases q
      exact held
    | gap =>
      cases q
      exact mem_append_left _ held
    | short => cases q

theorem Effects.missing (effects : Effects u thAck blocks p false tp) (ready : Ready u p blocks) (line : InLine u blocks)
    (single : ∀ b ∈ blocks,Single u b (p.before ++ p.after))
    (stays : (∃ h ∈ p.before ++ p.after,∀ b ∈ blocks,¬Met u b h) ∨ Lasting u (p.before ++ p.after) (diff p.tp.rcvLastsack u) blocks) (x : Int) :
    Missing u tp.sndHoles x ↔ Left u (p.before ++ p.after) (diff p.tp.rcvLastsack u) blocks x := by
  generalize whole : false = short at effects
  induction effects with
  | done => simp [Left,Exposed,Sacked,Pass.done]
  | ret => cases whole
  | @go b blocks p q short tp effect _ ih =>
    have some_ : p.before ++ p.after ≠ [] := by
      rcases stays with ⟨h,mem,_⟩ | lasting
      · exact ne_nil_of_mem mem
      obtain ⟨x,⟨h,mem,_⟩ | ⟨_,_,none,_⟩,_⟩ := lasting [] b blocks rfl
      · exact ne_nil_of_mem mem
      · cases none
    obtain ⟨step,last⟩ := effect.missing some_ (ready.passed b mem_cons_self) (single b mem_cons_self) (line.each b mem_cons_self)
    obtain ⟨later,_⟩ := pairwise_cons.mp line.sorted
    have stays' : (∃ h ∈ q.before ++ q.after,∀ b ∈ blocks,¬Met u b h) ∨ Lasting u (q.before ++ q.after) (diff q.tp.rcvLastsack u) blocks := by
      rcases stays with ⟨h,mem,unmet⟩ | lasting
      · exact .inl ⟨h,effect.keeps mem (unmet b mem_cons_self),fun c mem => unmet c (mem_cons_of_mem _ mem)⟩
      refine .inr fun done c rest split => ?_
      obtain ⟨x,left⟩ := lasting (b :: done) c rest (by rw [split]; rfl)
      exact ⟨x,(left_cons (step x) last).mpr left⟩
    rw [← left_cons (step x) last]
    exact ih (effect.ready ready line) line.tail (fun c mem => effect.single (later c mem) (single c (mem_cons_of_mem _ mem))) stays' whole

theorem Effects.missing_first (effects : Effects u thAck (b :: blocks) p false tp) (empty : p.before ++ p.after = []) (line : InLine u (b :: blocks)) (x : Int) :
    Missing u tp.sndHoles x ↔ ((diff thAck u ≤ x ∧ x < diff b.left u) ∨ Exposed u (diff b.right u) blocks x) ∧ ¬Sacked u blocks x := by
  obtain ⟨later,_⟩ := pairwise_cons.mp line.sorted
  have order := line.each b mem_cons_self
  cases effects with
  | @go _ _ _ q _ _ effect rest =>
    generalize r : Next.go q = next at effect
    cases effect with
    | @first tp₁ _ last =>
      cases r
      have unmet : ∀ c ∈ blocks,¬Met u c ⟨thAck,b.left,thAck⟩ := fun c mem => unmet_before (later c mem)
      have ready : Ready u ⟨tp₁,[],[⟨thAck,b.left,thAck⟩]⟩ blocks := by
        refine ⟨fun c _ h none => absurd none not_mem_nil,fun h mem => ?_⟩
        rcases mem_singleton.mp mem with rfl
        dsimp only
        rw [last]
        omega
      rw [rest.missing ready line.tail (fun c _ => pairwise_singleton _ _) (.inl ⟨_,mem_singleton_self _,unmet⟩)]
      simp [Left,Missing,Sackhole.Has,last]
    | walked some_ => exact (some_ empty).elim
    | short => cases r

theorem Walked.spares {q r : List Sackhole} (walked : Walked u top b before after q r) (missing : Missing u (before ++ after) x) (out : ¬b.Has u x) :
    Missing u (q ++ r) x := by
  cases walked with
  | between skipped split =>
    rwa [append_assoc,← split]
  | cut skipped split _ cut =>
    have rest := cut.rest x
    rw [split] at missing
    simp only [missing_append,missing_cons] at missing ⊢
    rcases missing with front | front | here | behind
    · exact .inl (.inl front)
    · exact .inl (.inr (.inl front))
    · have := missing_append.mp (rest here out)
      tauto
    · exact .inr (.inr behind)

theorem Effect.spares (effect : Effect u thAck b p (.go p')) (missing : Missing u (p.before ++ p.after) x) (out : ¬b.Has u x) :
    Missing u (p'.before ++ p'.after) x := by
  cases effect with
  | first empty =>
    rw [empty] at missing
    obtain ⟨_,none,_⟩ := missing
    cases none
  | @walked tp₁ before after next _ walked _ appended =>
    have held := walked.spares missing out
    generalize q : go p' = next at appended
    cases appended with
    | none =>
      cases q
      exact held
    | gap =>
      cases q
      exact missing_append.mpr (.inl held)
    | short => cases q

theorem Effects.spares (effects : Effects u thAck blocks p false tp) (missing : Missing u (p.before ++ p.after) x) (out : ¬Sacked u blocks x) :
    Missing u tp.sndHoles x := by
  generalize whole : false = short at effects
  induction effects with
  | done => exact missing
  | ret => cases whole
  | go effect _ ih =>
    rw [sacked_cons] at out
    exact ih (effect.spares missing fun has => out (.inl has)) (fun some => out (.inr some)) whole

-- Holes with bytes in them, all from position a on.
structure Ahead (u : Seq) (a : Int) (p : Pass) : Prop where
  real : ∀ h ∈ p.before ++ p.after,diff h.start u < diff h.stop u
  from_ : ∀ h ∈ p.before ++ p.after,a ≤ diff h.start u
  last : a ≤ diff p.tp.rcvLastsack u

theorem Effect.ahead (effect : Effect u thAck b p (.go p')) (some_ : p.before ++ p.after ≠ []) (order : diff b.left u < diff b.right u) (ahead : Ahead u a p) :
    Ahead u a p' := by
  have last₀ := ahead.last
  cases effect with
  | first empty => exact (some_ empty).elim
  | @walked tp₁ before after next _ walked last appended =>
    have real : ∀ h ∈ before ++ after,diff h.start u < diff h.stop u := by
      intro h mem
      rcases walked.within h mem with old | ⟨g,old,piece⟩
      · exact ahead.real h old
      · exact piece.order
    have from_ : ∀ h ∈ before ++ after,a ≤ diff h.start u := by
      intro h mem
      rcases walked.within h mem with old | ⟨g,old,piece⟩
      · exact ahead.from_ h old
      · exact le_trans (ahead.from_ g old) piece.low
    generalize q : go p' = next at appended
    cases appended with
    | none _ last' =>
      cases q
      rw [last] at last'
      exact ⟨real,from_,by dsimp only; omega⟩
    | gap behind last' =>
      cases q
      rw [last] at behind
      refine ⟨fun h mem => ?_,fun h mem => ?_,by dsimp only; omega⟩
      · rcases mem_append.mp mem with mem | mem
        · exact real h mem
        rcases mem_singleton.mp mem with rfl
        dsimp only
        rw [last]
        exact behind
      rcases mem_append.mp mem with mem | mem
      · exact from_ h mem
      rcases mem_singleton.mp mem with rfl
      dsimp only
      rw [last]
      exact last₀
    | short => cases q

theorem single_unmet (unmet : ∀ h ∈ l,¬Met u b h) : Single u b l := pairwise_of_forall_mem_list fun g mem _ _ both => unmet g mem both.1

theorem met_byte (met : Met u b h) (order : diff b.left u < diff b.right u) (real : diff h.start u < diff h.stop u) :
    b.Has u (max (diff b.left u) (diff h.start u)) ∧ h.Has u (max (diff b.left u) (diff h.start u)) := by
  obtain ⟨one,two⟩ := met
  exact ⟨⟨by omega,by omega⟩,⟨by omega,by omega⟩⟩

theorem Walked.single {q r : List Sackhole} (walked : Walked u top b before after q r) (passed : ∀ h ∈ before,diff h.stop u ≤ diff b.left u)
    (closed : ∀ h ∈ q ++ r,h ∈ before ++ after → ¬Met u b h) : Single u b (before ++ after) := by
  cases walked with
  | between skipped split all beyond =>
    refine single_unmet fun h mem => ?_
    rw [split] at mem
    simp only [mem_append] at mem
    rcases mem with mem | mem | mem
    · exact unmet_before (passed h mem)
    · exact unmet_before (all h mem)
    · exact unmet_behind (beyond h mem)
  | @cut skipped rest left right cur split all cut =>
    rw [split] at closed ⊢
    have alone : ∀ h ∈ rest,¬Met u b h := fun h mem => closed h (by simp [mem]) (by simp [mem])
    refine pairwise_append.mpr ⟨single_unmet fun h mem => unmet_before (passed h mem),?_,fun g mem h _ both => unmet_before (passed g mem) both.1⟩
    refine pairwise_append.mpr ⟨single_unmet fun h mem => unmet_before (all h mem),?_,fun g mem h _ both => unmet_before (all g mem) both.1⟩
    exact pairwise_cons.mpr ⟨fun h mem both => alone h mem both.2,single_unmet alone⟩

theorem Cut.unsingle (cut : Cut u top b cur left right) (apart : diff b.right u ≤ diff c.left u) (order : diff c.left u < diff c.right u)
    (single : Single u c (before ++ (left ++ right ++ rest))) : Single u c (before ++ cur :: rest) := by
  obtain ⟨front,back,across⟩ := pairwise_append.mp single
  obtain ⟨_,back,behind⟩ := pairwise_append.mp back
  have stands : Met u c cur → ∃ h ∈ left ++ right,Met u c h := by
    intro met
    obtain ⟨inside,has⟩ := met_byte met order cut.good.order
    obtain ⟨h,mem,part⟩ := cut.rest _ has fun early => by
      have := early.2
      have := inside.1
      omega
    exact ⟨h,mem,lt_of_le_of_lt inside.1 part.2,lt_of_le_of_lt part.1 inside.2⟩
  refine pairwise_append.mpr ⟨front,pairwise_cons.mpr ⟨fun h mem both => ?_,back⟩,fun g mem h mem' both => ?_⟩
  · obtain ⟨g,mem',met⟩ := stands both.1
    exact behind g mem' h mem ⟨met,both.2⟩
  rcases mem_cons.mp mem' with rfl | mem'
  · obtain ⟨k,here,met⟩ := stands both.2
    exact across g mem k (mem_append_left _ here) ⟨both.1,met⟩
  · exact across g mem h (mem_append_right _ mem') both

theorem Effect.unsingle (effect : Effect u thAck b p (.go p')) (apart : diff b.right u ≤ diff c.left u) (order : diff c.left u < diff c.right u)
    (single : Single u c (p'.before ++ p'.after)) : Single u c (p.before ++ p.after) := by
  cases effect with
  | first empty =>
    rw [empty]
    exact .nil
  | @walked tp₁ before after next _ walked _ appended =>
    have held : Single u c (before ++ after) := by
      generalize q : go p' = next at appended
      cases appended with
      | none =>
        cases q
        exact single
      | gap =>
        cases q
        exact (pairwise_append.mp single).1
      | short => cases q
    cases walked with
    | between skipped split =>
      rwa [split,← append_assoc]
    | @cut skipped rest left right cur split _ cut =>
      rw [split,← append_assoc]
      refine cut.unsingle apart order ?_
      simpa using held

theorem Effect.alone (effect : Effect u thAck b p (.go p')) (passed : ∀ h ∈ p.before,diff h.stop u ≤ diff b.left u)
    (closed : ∀ h ∈ p'.before ++ p'.after,h ∈ p.before ++ p.after → ¬Met u b h) : Single u b (p.before ++ p.after) := by
  cases effect with
  | first empty =>
    rw [empty]
    exact .nil
  | @walked tp₁ before after next _ walked _ appended =>
    refine walked.single passed fun h mem old => closed h ?_ old
    generalize q : go p' = next at appended
    cases appended with
    | none =>
      cases q
      exact mem
    | gap =>
      cases q
      exact mem_append_left _ mem
    | short => cases q

-- Blocks that do not overlap, on holes from position a on: when no byte of a block is missing
-- afterwards, each block meets one hole at most and the holes last.
theorem Effects.tidy (effects : Effects u thAck blocks p false tp) (ready : Ready u p blocks) (line : InLine u blocks)
    (separate : blocks.Pairwise fun b c => diff b.right u ≤ diff c.left u) (ends : ∀ b ∈ blocks,a < diff b.right u) (acked : diff thAck u = a) (ahead : Ahead u a p)
    (closed : ∀ x,a ≤ x → Sacked u blocks x → ¬Missing u tp.sndHoles x)
    (begun : p.before ++ p.after ≠ [] ∨ ∃ x,a ≤ x ∧ (∀ b ∈ blocks,x < diff b.left u) ∧ ¬Missing u tp.sndHoles x) :
    (∀ b ∈ blocks,Single u b (p.before ++ p.after)) ∧ Lasting u (p.before ++ p.after) (diff p.tp.rcvLastsack u) blocks := by
  generalize whole : false = short at effects
  induction effects with
  | done => exact ⟨by simp,fun done b later split => by simp at split⟩
  | ret => cases whole
  | @go b blocks p q short tp effect effects ih =>
    cases whole
    obtain ⟨gap,separate'⟩ := pairwise_cons.mp separate
    have order := line.each b mem_cons_self
    have end_ := ends b mem_cons_self
    have later : ∀ x,x < diff b.right u → ¬Sacked u blocks x := fun x less ⟨c,mem,has⟩ => by
      have := gap c mem
      have := has.1
      omega
    have some_ : p.before ++ p.after ≠ [] := by
      rcases begun with some_ | ⟨x,after,before,out⟩
      · exact some_
      intro empty
      have less := before b mem_cons_self
      exact out (((Effects.go effect effects).missing_first empty line x).mpr ⟨.inl ⟨by omega,less⟩,later x (by omega)⟩)
    have passed := ready.passed b mem_cons_self
    have single : Single u b (p.before ++ p.after) := by
      refine effect.alone passed fun h mem old met => ?_
      obtain ⟨inside,has⟩ := met_byte met order (ahead.real h old)
      have from_ := ahead.from_ h old
      exact closed _ (by omega) ⟨b,mem_cons_self,inside⟩ (effects.spares ⟨h,mem,has⟩ (later _ inside.2))
    obtain ⟨step,last⟩ := effect.missing some_ passed single order
    obtain ⟨singles,lasting⟩ := ih (effect.ready ready line) line.tail separate' (fun c mem => ends c (mem_cons_of_mem _ mem)) (effect.ahead some_ order ahead)
      (fun x after sacked => closed x after (sacked_cons.mpr (.inr sacked)))
      (.inr ⟨diff b.right u - 1,by omega,fun c mem => by have := gap c mem; omega,
        closed _ (by omega) ⟨b,mem_cons_self,⟨by omega,by omega⟩⟩⟩) rfl
    refine ⟨fun c mem => ?_,fun done c rest split => ?_⟩
    · rcases mem_cons.mp mem with rfl | mem
      · exact single
      · exact effect.unsingle (gap c mem) (line.each c (mem_cons_of_mem _ mem)) (singles c mem)
    cases done with
    | nil =>
      obtain ⟨h,mem⟩ := exists_mem_of_ne_nil _ some_
      exact ⟨diff h.start u,.inl ⟨h,mem,le_refl _,ahead.real h mem⟩,by simp [Sacked]⟩
    | cons d done =>
      obtain ⟨rfl,behind⟩ := cons.inj split
      obtain ⟨x,left⟩ := lasting done c rest behind
      exact ⟨x,(left_cons (step x) last).mp left⟩

end NetbsdAvr32.TcpSack
