import Lariat.Ext4.Update

/-! Truncation keeps the extents below a logical block, with the one across it cut. -/
namespace Lariat.Ext4
open Foundation.BlockTree List Function Nat

variable {g : Geometry} {d d' : Fs} {ino : Inode} {root : Node} {h H : Nat} {lblk : Nat}
  {es : List Extent}

theorem refund_refund (ino : Inode) (m n : Nat) :
    (ino.refund g m).refund g n = ino.refund g (m+n) := by
  simp only [Inode.refund,BitVec.sub_sub,Nat.add_mul,BitVec.ofNat_add]

theorem refund_zero (ino : Inode) : ino.refund g 0 = ino := by simp [Inode.refund]

theorem cutPhys_cons (lblk : Nat) (e : Extent) (es : List Extent) : cutPhys lblk (e :: es) =
    List.range' (e.start+(lblk-e.block)) (e.len-(lblk-e.block)) ++ cutPhys lblk es := rfl

theorem freeExtents_spec (lblk : Nat) (hd : Calm d) (ino : Inode) (hs : ∀ e ∈ es, e.Sane) :
    ∃ d', freeExtents g lblk es ino d = (ino.refund g (cutPhys lblk es).length,d') ∧ Calm d' ∧
      d'.blocks = d.blocks ∧ (∀ a, a ∉ cutPhys lblk es → d'.used a = d.used a) ∧
      ((cutPhys lblk es).Nodup → (∀ a ∈ cutPhys lblk es, g.Covers a ∧ d.used a = true) →
        Freed g d d' (cutPhys lblk es)) := by
  induction es generalizing d ino with
  | nil => exact ⟨d,by rw [freeExtents]; simp [cutPhys,refund_zero],hd,rfl,fun _ _ => rfl,
      fun _ _ => .refl g d⟩
  | cons e es ih =>
    obtain ⟨he,hes⟩ := forall_mem_cons.mp hs
    rw [freeExtents,cutPhys_cons]
    split
    · rename_i hle
      -- the record ends before the cut
      have hnil : List.range' (e.start+(lblk-e.block)) (e.len-(lblk-e.block)) = [] := by
        rw [he.stop_eq] at hle
        rw [show e.len-(lblk-e.block) = 0 by omega]
        rfl
      rw [hnil,nil_append]
      exact ih hd ino hes
    · obtain ⟨f1,f2,f3⟩ := freeRun_spec hd (e.start+(lblk-e.block)) (e.len-(lblk-e.block))
      obtain ⟨d',h1,h2,h3,h4,h5⟩ := ih f1 (ino.refund g (e.len-(lblk-e.block))) hes
      refine ⟨d',?_,h2,h3.trans f2,fun a ha => ?_,fun hn hu => ?_⟩
      · rw [h1,refund_refund,length_append,length_range']
      · obtain ⟨ha1,ha2⟩ := not_or.mp (mt mem_append.mpr ha)
        exact (h4 a ha2).trans (f3 a ha1)
      · obtain ⟨-,hn2,hdis⟩ := nodup_append.mp hn
        obtain ⟨hu1,hu2⟩ := forall_mem_append.mp hu
        refine (freeRun_freed hd _ _ hu1).trans (h5 hn2 fun a ha => ⟨(hu2 a ha).1,?_⟩)
        rw [f3 a fun hmem => hdis a hmem a ha rfl]
        exact (hu2 a ha).2

theorem cutPhys_reverse_perm (lblk : Nat) (es : List Extent) :
    (cutPhys lblk es.reverse).Perm (cutPhys lblk es) :=
  List.Perm.flatMap_right _ (reverse_perm es)

/-- The nodes below the root that keep no extent below the cut. -/
def emptied (lblk : Nat) : (h : Nat) → Tree Extent h → List Nat
  | 0, _ => []
  | h+1, cs => List.flatMap (fun c : Nat × Tree Extent h =>
      (if below lblk (flat h c.2) = [] then [c.1] else []) ++ emptied lblk h c.2) cs

@[simp] theorem emptied_inner (cs : List (Nat × Tree Extent h)) :
    emptied lblk (h+1) (inner cs) = cs.flatMap fun c =>
      (if below lblk (flat h c.2) = [] then [c.1] else []) ++ emptied lblk h c.2 := rfl

variable {t t' : Tree Extent h} {gone : List Nat}

theorem emptied_eq_nil (hf : Full h t) (hb : ∀ e ∈ flat h t, e.block+e.len ≤ lblk) :
    emptied lblk h t = [] := by
  induction h with
  | zero => rfl
  | succ h ih =>
    obtain ⟨cs,rfl⟩ := exists_inner t
    obtain ⟨-,hfull⟩ := full_inner.mp hf
    refine flatMap_eq_nil_iff.mpr fun c hc => ?_
    have hbc : ∀ e ∈ flat h c.2, e.block+e.len ≤ lblk := fun e he =>
      hb e (mem_flatMap.mpr ⟨c,hc,he⟩)
    rw [below_eq_self hbc,if_neg (hfull c hc).flat_ne_nil,ih (hfull c hc) hbc]
    rfl

variable (g)

/-- The tree `t` cut at a logical block: `t'` is what is left, and of the blocks of `t` those
in `gone` were freed. -/
structure Trimmed (lblk : Nat) (d d' : Fs) (h : Nat) (t t' : Tree Extent h) (gone : List Nat) :
    Prop where
  calm : Calm d'
  cut : flat h t' = below lblk (flat h t)
  full : t' = empty h ∨ Full h t'
  stored : Stored (nodeBlock g) d'.blocks h t'
  sub : ∀ a ∈ addrs h t', a ∈ addrs h t
  blocks : ∀ a, a ∉ addrs h t → d'.blocks a = d.blocks a
  used : ∀ a, a ∉ gone → d'.used a = d.used a
  perm : (addrs h t' ++ physBlocks (flat h t') ++ gone).Perm
    (addrs h t ++ physBlocks (flat h t))
  nodes : (addrs h t' ++ emptied lblk h t).Perm (addrs h t)
  freed : (addrs h t ++ physBlocks (flat h t)).Nodup →
    (∀ a ∈ addrs h t ++ physBlocks (flat h t), g.Covers a ∧ d.used a = true) → Freed g d d' gone
  capped : ∀ cap mx, Capped cap mx h t → Capped cap mx h t'

variable {g}

theorem content_entries_eq_zero (mx : Nat) (ht : t = empty h ∨ Full h t) :
    (content mx h t).entries = 0 ↔ t = empty h := by
  constructor
  · intro h0
    refine ht.resolve_right fun hf => ?_
    cases h with
    | zero => exact hf (length_eq_zero_iff.mp h0)
    | succ h => exact hf.1 (length_eq_zero_iff.mp ((length_map _).symm.trans h0))
  · rintro rfl
    cases h <;> rfl

theorem Trimmed.eq_empty (ht : Trimmed g lblk d d' h t t' gone) (h0 : below lblk (flat h t) = []) :
    t' = empty h :=
  ht.full.resolve_right fun hf => hf.flat_ne_nil (ht.cut.trans h0)

theorem Trimmed.full_of_ne (ht : Trimmed g lblk d d' h t t' gone) (h0 : below lblk (flat h t) ≠ []) :
    Full h t' := by
  refine ht.full.resolve_left fun he => h0 ?_
  rw [← ht.cut,he,flat_empty]

section Children

variable {init : List (Nat × Tree Extent h)} {b : Nat} {c c' : Tree Extent h}
  {cs : List (Nat × Tree Extent h)} {gone : List Nat} {d1 d2 : Fs}

theorem blocks_concat_perm (init : List (Nat × Tree Extent h)) (b : Nat) (c : Tree Extent h) :
    (addrs (h+1) (inner (init ++ [(b,c)])) ++ physBlocks (flat (h+1) (inner (init ++ [(b,c)])))).Perm
      ((addrs h c ++ physBlocks (flat h c)) ++ (b :: (addrs (h+1) (inner init) ++
        physBlocks (flat (h+1) (inner init))))) := by
  refine perm_iff_count.mpr fun a => ?_
  simp only [addrs_concat,flat_concat,physBlocks_append,count_append,count_cons]
  omega

/-- The last child lies behind the cut altogether and goes with its block. -/
theorem Trimmed.drop (hc : Trimmed g lblk d d1 h c (empty h) gone)
    (hb2 : d2.blocks = d1.blocks) (hu2 : ∀ a, a ≠ b → d2.used a = d1.used a)
    (hf2 : g.Covers b → d1.used b = true → Freed g d1 d2 [b]) {rest : List Nat}
    (hi : Trimmed g lblk d2 d' (h+1) (inner init) (inner cs) rest) :
    Trimmed g lblk d d' (h+1) (inner (init ++ [(b,c)])) (inner cs) (gone ++ b :: rest) where
  calm := hi.calm
  cut := by
    rw [hi.cut,flat_concat,below_append,← hc.cut,flat_empty,append_nil]
  full := hi.full
  stored := hi.stored
  sub := fun a ha => by
    rw [addrs_concat]
    exact mem_append_left _ (hi.sub a ha)
  blocks := by
    intro a ha
    rw [addrs_concat,mem_append,mem_cons,not_or,not_or] at ha
    rw [hi.blocks a ha.1,hb2,hc.blocks a ha.2.2]
  used := by
    intro a ha
    rw [mem_append,mem_cons,not_or,not_or] at ha
    rw [hi.used a ha.2.2,hu2 a ha.2.1,hc.used a ha.1]
  perm := by
    have h1 := hc.perm
    have h3 := hi.perm
    rw [addrs_empty,flat_empty,physBlocks_nil,append_nil,nil_append] at h1
    refine perm_iff_count.mpr fun a => ?_
    have c1 := h1.count_eq a
    have c3 := h3.count_eq a
    simp only [addrs_concat,flat_concat,physBlocks_append,count_append,count_cons] at c1 c3 ⊢
    omega
  nodes := by
    have hbelow : below lblk (flat h c) = [] := by rw [← hc.cut,flat_empty]
    refine perm_iff_count.mpr fun a => ?_
    have c1 := hc.nodes.count_eq a
    have c3 := hi.nodes.count_eq a
    simp only [addrs_empty,addrs_inner,emptied_inner,flatMap_append,flatMap_singleton,
      nil_append,count_append,count_cons,hbelow,if_true] at c1 c3 ⊢
    simp only [count_nil]
    omega
  freed := by
    intro hn hu
    have hperm := blocks_concat_perm init b c
    obtain ⟨hn1,hn2,hdis⟩ := nodup_append.mp (hperm.nodup_iff.mp hn)
    obtain ⟨hb,hni⟩ := nodup_cons.mp hn2
    obtain ⟨hu1,hu2'⟩ := forall_mem_append.mp fun a ha => hu a (hperm.mem_iff.mpr ha)
    obtain ⟨hub,hui⟩ := forall_mem_cons.mp hu2'
    have hsub : ∀ a ∈ gone, a ∈ addrs h c ++ physBlocks (flat h c) := fun a ha =>
      hc.perm.mem_iff.mp (mem_append_right _ ha)
    have h1 := hc.freed hn1 hu1
    have hgone : ∀ a ∈ b :: (addrs (h+1) (inner init) ++ physBlocks (flat (h+1) (inner init))),
        d1.used a = d.used a := fun a ha => h1.kept fun hg => hdis a (hsub a hg) a ha rfl
    obtain ⟨hgb,hgi⟩ := forall_mem_cons.mp hgone
    have h2 := hf2 hub.1 (hgb.trans hub.2)
    refine h1.trans (h2.trans (hi.freed hni fun a ha => ⟨(hui a ha).1,?_⟩))
    rw [h2.kept,hgi a ha,(hui a ha).2]
    rw [mem_singleton]
    rintro rfl
    exact hb ha
  capped := by
    intro cap mx hcap
    obtain ⟨hlen,hcs⟩ := capped_inner.mp hcap
    refine hi.capped cap mx (capped_inner.mpr ⟨?_,(forall_mem_append.mp hcs).1⟩)
    rw [length_append] at hlen
    omega

/-- The last child reaches below the cut; what is before it stays. -/
theorem Trimmed.last (hc : Trimmed g lblk d d1 h c c' gone) (hf : Full h c')
    (hinit : ∀ y ∈ init, Full h y.2) (hst : Stored (nodeBlock g) d.blocks (h+1) (inner init))
    (hle : ∀ e ∈ flat (h+1) (inner init), e.block+e.len ≤ lblk)
    (hn : (addrs (h+1) (inner (init ++ [(b,c)]))).Nodup) :
    Trimmed g lblk d (d1.put b (nodeBlock g h c')) (h+1) (inner (init ++ [(b,c)]))
      (inner (init ++ [(b,c')])) gone := by
  rw [addrs_concat,nodup_append] at hn
  obtain ⟨-,hbc,hdis⟩ := hn
  have hb : b ∉ addrs h c' := fun hmem => (nodup_cons.mp hbc).1 (hc.sub b hmem)
  have hside : ∀ a ∈ addrs (h+1) (inner init),
      (d1.put b (nodeBlock g h c')).blocks a = d.blocks a := by
    intro a ha
    have hab : a ≠ b := hdis a ha b (mem_cons_self ..)
    have hac : a ∉ addrs h c := fun hmem => hdis a ha a (mem_cons_of_mem _ hmem) rfl
    exact (update_of_ne hab _ _).trans (hc.blocks a hac)
  constructor
  · exact hc.calm.put b _
  · rw [flat_concat,flat_concat,below_append,hc.cut,below_eq_self hle]
  · exact .inr (full_inner.mpr ⟨by simp,forall_mem_append.mpr
      ⟨hinit,forall_mem_singleton.mpr hf⟩⟩)
  · refine (stored_inner _).mpr (forall_mem_append.mpr ⟨?_,forall_mem_singleton.mpr
      ⟨update_self ..,hc.stored.update hb _⟩⟩)
    exact (stored_inner _).mp (hst.congr hside)
  · intro a ha
    simp only [addrs_concat,mem_append,mem_cons] at ha ⊢
    exact ha.imp_right (Or.imp_right (hc.sub a))
  · intro a ha
    rw [addrs_concat,mem_append,mem_cons,not_or,not_or] at ha
    exact (update_of_ne ha.2.1 _ _).trans (hc.blocks a ha.2.2)
  · exact hc.used
  · refine perm_iff_count.mpr fun a => ?_
    have c1 := hc.perm.count_eq a
    simp only [addrs_concat,flat_concat,physBlocks_append,count_append,count_cons] at c1 ⊢
    omega
  · have hbelow : below lblk (flat h c) ≠ [] := hc.cut ▸ hf.flat_ne_nil
    have hnone : emptied lblk (h+1) (inner init) = [] := by
      refine flatMap_eq_nil_iff.mpr fun y hy => ?_
      have hley : ∀ e ∈ flat h y.2, e.block+e.len ≤ lblk := fun e he =>
        hle e (mem_flatMap.mpr ⟨y,hy,he⟩)
      rw [below_eq_self hley,if_neg (hinit y hy).flat_ne_nil,emptied_eq_nil (hinit y hy) hley]
      rfl
    rw [emptied_inner] at hnone
    rw [emptied_inner,flatMap_append,hnone,flatMap_singleton,if_neg hbelow]
    refine perm_iff_count.mpr fun a => ?_
    have c1 := hc.nodes.count_eq a
    simp only [addrs_concat,nil_append,count_append,count_cons] at c1 ⊢
    omega
  · intro hn' hu
    have hperm := blocks_concat_perm init b c
    obtain ⟨hn1,-,-⟩ := nodup_append.mp (hperm.nodup_iff.mp hn')
    have h1 := hc.freed hn1 fun a ha => hu a (hperm.mem_iff.mpr (mem_append_left _ ha))
    exact ⟨h1.used,h1.groups,h1.total⟩
  · intro cap mx hcap
    obtain ⟨hlen,hcs⟩ := capped_inner.mp hcap
    obtain ⟨hci,hcc⟩ := forall_mem_append.mp hcs
    refine capped_inner.mpr ⟨by simpa using hlen,forall_mem_append.mpr ⟨hci,?_⟩⟩
    exact forall_mem_singleton.mpr (hc.capped _ _ (hcc _ (mem_singleton_self _)))

end Children

theorem below_ne_nil {es : List Extent} (hne : es ≠ []) (h : firstKey es < lblk) :
    below lblk es ≠ [] := by
  obtain ⟨e,es,rfl⟩ := exists_cons_of_ne_nil hne
  rw [below_cons_of_lt h]
  exact cons_ne_nil _ _

theorem below_of_firstKey_le {es : List Extent} (hs : Sorted es) (h : lblk ≤ firstKey es) :
    below lblk es = [] := by
  cases es with
  | nil => rfl
  | cons e es => exact below_cons_of_le hs h

variable (g) in
/-- What truncating a subtree of height `h` comes to. -/
def TrimsSubtree (lblk h : Nat) (sub : Node → Inode → Fs → Option (Nat × Node × Inode × Fs)) : Prop :=
  ∀ (mx : Nat) (t : Tree Extent h) (ino : Inode) (d : Fs), Calm d →
    Stored (nodeBlock g) d.blocks h t → (h = 0 ∨ Full h t) → Sorted (flat h t) →
    (addrs h t).Nodup → ∃ t' ino' d' gone,
      sub (content mx h t) ino d =
        some ((content mx h t').entries,content mx h t',ino',d') ∧
      ino' = ino.refund g gone.length ∧ Trimmed g lblk d d' h t t' gone

theorem freeChildren_spec {sub : Node → Inode → Fs → Option (Nat × Node × Inode × Fs)}
    (hsub : TrimsSubtree g lblk h sub) (cs : List (Nat × Tree Extent h)) (n : Nat) (ino : Inode)
    (hd : Calm d) (hst : Stored (nodeBlock g) d.blocks (h+1) (inner cs))
    (hf : ∀ c ∈ cs, Full h c.2) (hs : Sorted (flat (h+1) (inner cs)))
    (hn : (addrs (h+1) (inner cs)).Nodup) :
    ∃ cs' ino' d' gone,
      freeChildren g lblk sub (cs.map fun c => ⟨firstKey (flat h c.2),c.1⟩).reverse n ino d =
        some (n+(cs.length-cs'.length),ino',d') ∧ ino' = ino.refund g gone.length ∧
      cs'.length ≤ cs.length ∧
      (cs.map fun c => Index.mk (firstKey (flat h c.2)) c.1).take cs'.length =
        (cs'.map fun c => ⟨firstKey (flat h c.2),c.1⟩) ∧
      Trimmed g lblk d d' (h+1) (inner cs) (inner cs') gone := by
  induction cs using List.reverseRecOn generalizing n ino d with
  | nil =>
    exact ⟨[],ino,d,[],rfl,(refund_zero ino).symm,le_refl _,rfl,hd,rfl,.inl rfl,hst,
      fun _ h => h,fun _ _ => rfl,fun _ _ => rfl,List.Perm.refl _,List.Perm.refl _,
      fun _ _ => .refl g d,fun _ _ h => h⟩
  | append_singleton init bc ih =>
    obtain ⟨b,c⟩ := bc
    obtain ⟨hfi,hfc⟩ := forall_mem_append.mp hf
    have hfc := hfc (b,c) (mem_singleton_self _)
    obtain ⟨hsti,hstc⟩ := forall_mem_append.mp ((stored_inner _).mp hst)
    obtain ⟨hb,hstc⟩ := hstc (b,c) (mem_singleton_self _)
    have hs' := hs
    rw [flat_concat] at hs'
    obtain ⟨hsi,hsc,-⟩ := sorted_append.mp hs'
    have hn' := hn
    rw [addrs_concat,nodup_append] at hn'
    obtain ⟨hni,hnc,hdis⟩ := hn'
    obtain ⟨c',ino1,d1,gone,hrun,hroot,htrim⟩ :=
      hsub (blockMax g) c ino d hd hstc (.inr hfc) hsc (nodup_cons.mp hnc).2
    rw [map_append,reverse_append,map_singleton,reverse_singleton,
      singleton_append,freeChildren,hd.kzalloc]
    simp only [hd.readBlock,hb,nodeBlock,Block.asNode,hrun]
    by_cases hkey : firstKey (flat h c) < lblk
    · -- the child keeps a record, and everything before it ends below the cut
      have hne := below_ne_nil hfc.flat_ne_nil hkey
      have hfull := htrim.full_of_ne hne
      obtain ⟨k,hk⟩ := exists_eq_succ_of_ne_zero fun h0 : (content (blockMax g) h c').entries = 0 =>
        hfull.flat_ne_nil (by rw [(content_entries_eq_zero _ htrim.full).mp h0,flat_empty])
      have hfirst : firstKey (flat h c') = firstKey (flat h c) := by
        rw [htrim.cut]
        exact congrArg (·.getD 0) (below_head hsc hne)
      have hle := left_of_child hs hfc (.inr (le_of_lt hkey))
      refine ⟨init ++ [(b,c')],ino1,d1.put b (nodeBlock g h c'),gone,?_,hroot,by simp,?_,
        htrim.last hfull hfi ((stored_inner _).mpr hsti) hle hn⟩
      · simp only [hk,if_pos hkey,htrim.calm.writeBlock,nodeBlock]
        simp
      · rw [take_of_length_le (by simp)]
        simp [hfirst]
    · -- the child lies behind the cut and is dropped with its block
      have hnil := below_of_firstKey_le hsc (not_lt.mp hkey)
      obtain rfl := htrim.eq_empty hnil
      have hentries : (content (blockMax g) h (empty h)).entries = 0 :=
        (content_entries_eq_zero _ (.inl rfl)).mpr rfl
      obtain ⟨f1,f2,f3⟩ := freeBlock_spec htrim.calm b
      have hsti2 : Stored (nodeBlock g) (freeBlock g d1 b).blocks (h+1) (inner init) := by
        refine Stored.congr ((stored_inner _).mpr hsti) fun a ha => ?_
        rw [f2,htrim.blocks a fun hmem => hdis a ha a (mem_cons_of_mem _ hmem) rfl]
      obtain ⟨cs',ino2,d2,rest,i1,i2,i3,i4,i5⟩ := ih (n+1) (ino1.refund g 1) f1 hsti2 hfi hsi hni
      refine ⟨cs',ino2,d2,gone ++ b :: rest,?_,?_,by simp; omega,?_,
        htrim.drop f2 f3 (fun hv hu => freeBlock_freed htrim.calm hv hu) i5⟩
      · simp only [hentries,if_neg hkey,i1,length_append,length_singleton]
        congr 2
        omega
      · rw [i2,hroot,refund_refund,refund_refund,length_append,length_cons]
        congr 1
        omega
      · rw [take_append_of_le_length (by simpa using i3)]
        exact i4

theorem freeSubtreeFrom_spec (lblk fuel : Nat) (hfuel : h < fuel) :
    TrimsSubtree g lblk h (freeSubtreeFrom g lblk fuel) := by
  induction h generalizing fuel with
  | zero =>
    obtain ⟨fuel,rfl⟩ := exists_eq_succ_of_ne_zero (ne_of_gt hfuel)
    intro mx t ino d hd hst _ hs _
    obtain ⟨es,rfl⟩ := exists_leaf t
    rw [flat_leaf] at hs
    obtain ⟨d',h1,h2,h3,h4,h5⟩ := freeExtents_spec (g := g) lblk hd ino
      (fun e he => hs.sane e (mem_reverse.mp he))
    have hrev := cutPhys_reverse_perm lblk es
    have hcut : (physBlocks (below lblk es) ++ cutPhys lblk es).Perm (physBlocks es) :=
      physBlocks_below_perm fun e he => (hs.sane e he).1
    refine ⟨leaf (below lblk es),_,d',cutPhys lblk es,?_,rfl,h2,rfl,?_,trivial,by simp,
      fun a _ => congrFun h3 a,fun a ha => h4 a (mt hrev.mem_iff.mp ha),?_,List.Perm.refl _,
      fun hn hu => ?_,fun _ _ hcap => le_trans (below_length_le lblk es) hcap⟩
    · simp only [freeSubtreeFrom,content_leaf,ne_eq,not_true_eq_false,if_false,if_true,
        cutExtents_eq hs,h1,hrev.length_eq]
    · rcases Classical.em (below lblk es = []) with hnil | hne
      · exact .inl hnil
      · exact .inr hne
    · simpa using hcut
    · rw [addrs_leaf,nil_append,flat_leaf] at hn hu
      have hn' := (nodup_append.mp (hcut.nodup_iff.mpr hn)).2.1
      refine (h5 (hrev.nodup_iff.mpr hn') fun a ha => ?_).congr hrev
      exact hu a (hcut.mem_iff.mp (mem_append_right _ (hrev.mem_iff.mp ha)))
  | succ h ih =>
    obtain ⟨fuel,rfl⟩ := exists_eq_succ_of_ne_zero (ne_of_gt (zero_lt_of_lt hfuel))
    intro mx t ino d hd hst hf hs hn
    obtain ⟨cs,rfl,hne,hfull⟩ := full_succ hf
    obtain ⟨cs',ino',d',gone,h1,h2,h3,h4,h5⟩ :=
      freeChildren_spec (ih fuel (by omega)) cs 0 ino hd hst hfull hs hn
    refine ⟨inner cs',ino',d',gone,?_,h2,h5⟩
    have htake : (cs.map fun c => Index.mk (firstKey (flat h c.2)) c.1).take
        (cs.length-(0+(cs.length-cs'.length))) =
        cs'.map fun c => ⟨firstKey (flat h c.2),c.1⟩ := by
      rw [← h4]
      congr 1
      omega
    simp only [freeSubtreeFrom,content_inner,ne_eq,not_true_eq_false,if_false,succ_ne_zero,
      h1,length_map,htake]

/-- The root of a trimmed tree in the inode; an empty one becomes a leaf. -/
theorem Trimmed.inInode {t t' : Tree Extent H} (ht : Trimmed g lblk d d' H t t' gone) :
    ∃ H', ∃ t'' : Tree Extent H', H' ≤ H ∧ addrs H' t'' = addrs H t' ∧ flat H' t'' = flat H t' ∧
      (H' = 0 ∨ Full H' t'') ∧ Stored (nodeBlock g) d'.blocks H' t'' ∧
      (∀ cap mx, Capped cap mx H t → Capped cap mx H' t'') ∧
      (if (content rootMax H t').entries = 0 then { content rootMax H t' with depth := 0 }
        else content rootMax H t') = content rootMax H' t'' := by
  by_cases hz : (content rootMax H t').entries = 0
  · obtain rfl := (content_entries_eq_zero _ ht.full).mp hz
    refine ⟨0,leaf [],zero_le _,addrs_empty.symm,flat_empty.symm,.inl rfl,trivial,
      fun _ _ _ => zero_le _,?_⟩
    rw [if_pos hz]
    cases H <;> rfl
  · exact ⟨H,t',le_refl _,rfl,rfl,.inr (ht.full.resolve_left fun he =>
      hz ((content_entries_eq_zero _ ht.full).mpr he)),ht.stored,ht.capped,if_neg hz⟩

/-- `ext4_free_blocks_from` leaves the extents below the block, and the inode in order. -/
theorem freeBlocksFrom_spec {t : Tree Extent H} (lblk : Nat) (hr : Rep g d ino.root H t []) :
    ∃ ino' d' H', ∃ t' : Tree Extent H', freeBlocksFrom g ino d lblk = some (ino',d') ∧
      Rep g d' ino'.root H' t' [] ∧ flat H' t' = below lblk (flat H t) := by
  have hn := hr.nodup
  have hheld := hr.held
  rw [append_nil] at hn hheld
  have hfuel : H < descentMax := lt_trans hr.height (by decide)
  obtain ⟨t',ino',d',gone,h1,h2,h3⟩ := freeSubtreeFrom_spec lblk descentMax hfuel rootMax t
    ino d hr.calm hr.stored hr.full hr.sorted (nodup_append.mp hn).1
  obtain ⟨H',t'',hH',haddrs,hflat,hfull,hst,-,hroot⟩ := h3.inInode
  obtain ⟨hn',-,hdis⟩ := nodup_append.mp (h3.perm.nodup_iff.mpr hn)
  have hmagic : ino.root.magic = extentMagic := by rw [hr.root,content_magic]
  rw [freeBlocksFrom,if_neg (not_not.mpr hmagic),hr.root,h1]
  refine ⟨_,d',H',t'',rfl,⟨h3.calm,hH'.trans_lt hr.height,hroot,hst,hfull,?_,?_,?_⟩,
    hflat.trans h3.cut⟩
  · rw [hflat,h3.cut]
    exact below_sorted hr.sorted
  · rwa [append_nil,haddrs,hflat]
  · rw [append_nil,haddrs,hflat]
    intro b hb
    obtain ⟨h0,hu⟩ := hheld b (h3.perm.mem_iff.mp (mem_append_left _ hb))
    exact ⟨h0,(h3.used b fun hg => hdis b hb b hg rfl).trans hu⟩

theorem Trimmed.wellFormed {t t' : Tree Extent H} (ht : Trimmed g lblk d d' H t t' gone)
    (hw : WellFormed g d root H t) (hn : (addrs H t ++ physBlocks (flat H t)).Nodup) :
    ∃ H', ∃ t'' : Tree Extent H', H' ≤ H ∧ flat H' t'' = flat H t' ∧
      WellFormed g d' (if (content rootMax H t').entries = 0 then
        { content rootMax H t' with depth := 0 } else content rootMax H t') H' t'' := by
  obtain ⟨H',t'',hH',haddrs,hflat,hfull,hst,hcap,hroot⟩ := ht.inInode
  obtain ⟨hn',-,hdis⟩ := nodup_append.mp (ht.perm.nodup_iff.mpr hn)
  refine ⟨H',t'',hH',hflat,⟨hroot,hst,hfull,?_,?_,fun b hb => ?_⟩,hcap _ _ hw.capped⟩
  · rw [hflat,ht.cut]
    exact below_sorted hw.sorted
  · rw [haddrs]
    exact (nodup_append.mp hn').1
  · rw [haddrs] at hb
    obtain ⟨h0,hu⟩ := hw.held b (ht.sub b hb)
    exact ⟨h0,(ht.used b fun hg => hdis b (mem_append_left _ hb) b hg rfl).trans hu⟩

end Lariat.Ext4
