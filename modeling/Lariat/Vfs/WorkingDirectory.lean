import Lariat.Vfs.File

/-! The working directory: `normalize_path` with the cursor of its output buffer, and `sys_chdir`. -/
namespace Lariat.Vfs
open Foundation.NameTree List Nat

/-- An absolute path as its components, each after a slash. A doubled or a trailing slash is an
empty component. -/
def joined (ps : List Name) : Path := ps.flatMap ('/' :: ·)

/-- The components with a meaning. -/
def pieceHops (ps : List Name) : List (Hop Name) := (ps.filter (· ≠ [])).map hop

/-- The names left when empty and `.` components are dropped and each `..` is cancelled with the
component before it, or dropped at the root. -/
def canonicalNames (ps : List Name) : List Name := (lexical [] (pieceHops ps)).reverse

def canonicalForm (ps : List Name) : Path :=
  if canonicalNames ps = [] then ['/'] else joined (canonicalNames ps)

theorem mem_lexical {κ : Type*} {s : List κ} {hs : List (Hop κ)} {k : κ} (h : k ∈ lexical s hs) :
    k ∈ s ∨ .into k ∈ hs := by
  induction hs generalizing s with
  | nil => exact .inl h
  | cons hop hs ih =>
    cases hop with
    | stay => exact (ih h).imp_right (mem_cons_of_mem _)
    | up => exact (ih h).imp mem_of_mem_tail (mem_cons_of_mem _)
    | into j =>
      rcases ih h with hk | hk
      · rcases mem_cons.mp hk with rfl | hk
        · exact .inr (mem_cons_self ..)
        · exact .inl hk
      · exact .inr (mem_cons_of_mem _ hk)

variable {p n : Name} {ps s : List Name} {out : List Char} {x : Hop Name} {hs : List (Hop Name)}

theorem hop_eq_into (h : hop p = .into n) : p = n := by
  unfold hop at h
  split at h
  · cases h
  split at h
  · cases h
  · exact Hop.into.inj h

theorem mem_canonicalNames {k : Name} (h : k ∈ canonicalNames ps) :
    k ∈ ps ∧ k ≠ [] ∧ hop k = .into k := by
  have hinto := (mem_lexical (mem_reverse.mp h)).resolve_left not_mem_nil
  obtain ⟨p,hp,he⟩ := mem_map.mp hinto
  obtain ⟨hmem,hne⟩ := mem_filter.mp hp
  obtain rfl := hop_eq_into he
  exact ⟨hmem,by simpa using hne,he⟩

theorem isAbsolute_joined (h : ps ≠ []) : isAbsolute (joined ps) := by
  cases ps with
  | nil => exact absurd rfl h
  | cons p ps => rfl

def ENOTDIR : BitVec 64 := 20
def ENAMETOOLONG : BitVec 64 := 36

/-- The characters `out` holds besides the last zero. -/
def OUT_LEN : Nat := 255

/-- One character at the cursor. What has been written stands with the last character first. -/
def put (out : List Char) (c : Char) : List Char := if out.length < OUT_LEN then c :: out else out

/-- The cursor backs up to a slash, but not over the first. -/
def rewind : List Char → List Char
  | c :: d :: out => if c = '/' then c :: d :: out else rewind (d :: out)
  | out => out

def normalizeSegment (out : List Char) (seg : Name) : List Char :=
  if seg = ['.'] then out
  else if seg = ['.','.'] then if 1 < out.length then rewind out.tail else out
  else seg.foldl put (if 1 < out.length then put out '/' else out)

/-- The loop over the segments. Each turn but the last takes at least one character. -/
def normalizeLoop : Nat → List Char → Path → List Char
  | 0, out, _ => out
  | k+1, out, p =>
    let seg := p.dropWhile (· == '/')
    if seg = [] then out
    else normalizeLoop k (normalizeSegment out (seg.takeWhile (· != '/'))) (seg.dropWhile (· != '/'))

def normalizePath (path : Path) : Path := (normalizeLoop path.length ['/'] path).reverse

/-- The path `sys_chdir` normalises: an absolute one as it is, another behind the working directory.
-/
def chdirPath (cwd p : Path) : Option Path :=
  if isAbsolute p then if 256 ≤ p.length then none else some p
  else if 256 ≤ cwd.length+1+p.length+1 then none
  else some (cwd ++ '/' :: p)

/-- The result and the working directory after the call. -/
def sysChdir (T : Tree Nat Name) (cwd p : Path) : BitVec 64 × Path :=
  match chdirPath cwd p with
  | none => (-ENAMETOOLONG,cwd)
  | some buf =>
    match vfsLookupPath T (normalizePath buf) with
    | none => (-ENOENT,cwd)
    | some d => if T.isDir d.node then (0,normalizePath buf) else (-ENOTDIR,cwd)

/-! ### Segments -/

def splitSlash : Path → List Name
  | [] => [[]]
  | c :: cs => if c = '/' then [] :: splitSlash cs else (splitSlash cs).modifyHead (c :: ·)

/-- The segments of an absolute path, the empty ones included. -/
def pieces (path : Path) : List Name := splitSlash path.tail

/-- The canonical form of an absolute path. -/
def canonical (path : Path) : Path := canonicalForm (pieces path)

theorem length_joined_cons (p : Name) (s : List Name) :
    (joined (p :: s)).length = 1+p.length + (joined s).length := by
  show ('/' :: (p ++ joined s)).length = _
  rw [length_cons,length_append]
  omega

theorem splitSlash_cons (path : Path) : ∃ p ps, splitSlash path = p :: ps := by
  induction path with
  | nil => exact ⟨[],[],rfl⟩
  | cons c cs ih =>
    rw [splitSlash]
    split
    · exact ⟨_,_,rfl⟩
    · obtain ⟨p,ps,hp⟩ := ih
      rw [hp]
      exact ⟨_,_,rfl⟩

theorem joined_splitSlash (path : Path) : joined (splitSlash path) = '/' :: path := by
  induction path with
  | nil => rfl
  | cons c cs ih =>
    rw [splitSlash]
    split
    · rename_i hc
      show '/' :: joined (splitSlash cs) = _
      rw [ih,hc]
    obtain ⟨p,ps,hp⟩ := splitSlash_cons cs
    rw [hp] at ih ⊢
    have htail : p ++ joined ps = cs := tail_eq_of_cons_eq ih
    show '/' :: c :: (p ++ joined ps) = _
    rw [htail]

theorem slash_notMem_splitSlash (path : Path) : ∀ p ∈ splitSlash path, '/' ∉ p := by
  induction path with
  | nil =>
    intro p hp
    rw [mem_singleton.mp hp]
    exact not_mem_nil
  | cons c cs ih =>
    rw [splitSlash]
    split
    · exact forall_mem_cons.mpr ⟨not_mem_nil,ih⟩
    rename_i hc
    obtain ⟨p,ps,hp⟩ := splitSlash_cons cs
    rw [hp] at ih ⊢
    obtain ⟨hhead,htail⟩ := forall_mem_cons.mp ih
    refine forall_mem_cons.mpr ⟨fun hmem => ?_,htail⟩
    rcases mem_cons.mp hmem with h | h
    · exact hc h.symm
    · exact hhead h

theorem joined_pieces {path : Path} (h : isAbsolute path) : joined (pieces path) = path := by
  obtain ⟨q,rfl⟩ := isAbsolute_iff.mp h
  exact joined_splitSlash q

theorem splitSlash_append (h : '/' ∉ p) (rest : Path) :
    splitSlash (p ++ rest) = (splitSlash rest).modifyHead (p ++ ·) := by
  induction p with
  | nil =>
    obtain ⟨q,qs,hq⟩ := splitSlash_cons rest
    rw [nil_append,hq]
    rfl
  | cons c cs ih =>
    obtain ⟨hc,hcs⟩ := ne_and_not_mem_of_not_mem_cons h
    rw [cons_append,splitSlash,if_neg (Ne.symm hc),ih hcs,modifyHead_modifyHead]
    rfl

theorem splitSlash_joined (h : ∀ n ∈ p :: ps, '/' ∉ n) : splitSlash (p ++ joined ps) = p :: ps := by
  induction ps generalizing p with
  | nil =>
    rw [splitSlash_append (h p mem_cons_self)]
    show [p ++ []] = [p]
    rw [append_nil]
  | cons q qs ih =>
    have hstep : splitSlash (joined (q :: qs)) = [] :: (q :: qs) := by
      show splitSlash ('/' :: (q ++ joined qs)) = _
      rw [splitSlash,if_pos rfl,ih fun n hn => h n (mem_cons_of_mem _ hn)]
    rw [splitSlash_append (h p mem_cons_self),hstep]
    show (p ++ []) :: q :: qs = _
    rw [append_nil]

theorem pieces_joined (hne : ps ≠ []) (h : ∀ n ∈ ps, '/' ∉ n) : pieces (joined ps) = ps := by
  cases ps with
  | nil => exact absurd rfl hne
  | cons p ps => exact splitSlash_joined h

/-! ### The loop goes through the segments -/

theorem normalizeLoop_slash (k : Nat) (out : List Char) (p : Path) :
    normalizeLoop k out ('/' :: p) = normalizeLoop k out p := by
  cases k with
  | zero => rfl
  | succ k => rfl

theorem normalizeLoop_name {k : Nat} (hne : p ≠ []) (hp : '/' ∉ p) :
    normalizeLoop (k+1) out (p ++ joined ps) = normalizeLoop k (normalizeSegment out p) (joined ps) := by
  have hname : ∀ c ∈ p, (c != '/') = true := fun c hc => bne_iff_ne.mpr fun h => hp (h ▸ hc)
  have hrest : (joined ps).takeWhile (· != '/') = [] ∧ (joined ps).dropWhile (· != '/') = joined ps := by
    cases ps with
    | nil | cons q qs => exact ⟨rfl,rfl⟩
  have hstart : (p ++ joined ps).dropWhile (· == '/') = p ++ joined ps := by
    cases p with
    | nil => exact absurd rfl hne
    | cons c cs =>
      have hc : (c == '/') = false := by
        have := hname c mem_cons_self
        simpa using this
      rw [cons_append,dropWhile_cons,hc]
      rfl
  rw [normalizeLoop,hstart,if_neg (append_ne_nil_of_left_ne_nil hne _),
    takeWhile_append_of_pos hname,dropWhile_append_of_pos hname,hrest.1,hrest.2,append_nil]

theorem normalizeLoop_joined {k : Nat} (h : ∀ p ∈ ps, '/' ∉ p) (hk : (joined ps).length ≤ k) :
    normalizeLoop k out (joined ps) = (ps.filter (· ≠ [])).foldl normalizeSegment out := by
  induction ps generalizing k out with
  | nil =>
    cases k with
    | zero => rfl
    | succ k => rfl
  | cons p ps ih =>
    obtain ⟨hp,hps⟩ := forall_mem_cons.mp h
    rw [length_joined_cons] at hk
    show normalizeLoop k out ('/' :: (p ++ joined ps)) = _
    rw [normalizeLoop_slash]
    by_cases hne : p = []
    · subst hne
      rw [nil_append,ih hps (by omega)]
      rfl
    · obtain ⟨j,rfl⟩ : ∃ j, k = j+1 := ⟨k-1,by omega⟩
      rw [normalizeLoop_name hne hp,ih hps (by omega),filter_cons_of_pos (by simpa using hne)]
      rfl

/-! ### The buffer as a stack of segments -/

/-- What the buffer holds for segments, the last first. An empty one is a slash too many. -/
def written (s : List Name) : List Char := if s = [] then ['/'] else s.flatMap (·.reverse ++ ['/'])

/-- The last segment is overwritten, all but the slash before it. -/
def blank : List Name → List Name
  | [] => []
  | _ :: s => if s = [] then [] else [] :: s

/-- What a `..` does to the segments. The slash it leaves is a segment to the next `..`. -/
def retreat : List Name → List Name
  | [] :: s => blank s
  | s => blank s

def advance (s : List Name) : Hop Name → List Name
  | .stay => s
  | .up => retreat s
  | .into n => n :: s

/-- A `..` leads to the root, or to the slash behind a segment that is not the first. -/
theorem retreat_cases (s : List Name) : retreat s = [] ∨
    ∃ n r, (s = n :: r ∨ s = [] :: n :: r) ∧ r ≠ [] ∧ retreat s = [] :: r := by
  obtain ⟨q,hq,hs⟩ : ∃ q, retreat s = blank q ∧ (s = q ∨ s = [] :: q) := by
    unfold retreat
    split
    · exact ⟨_,rfl,.inr rfl⟩
    · exact ⟨s,rfl,.inl rfl⟩
  rw [hq]
  cases q with
  | nil => exact .inl rfl
  | cons n r =>
    by_cases hr : r = []
    · exact .inl (if_pos hr)
    · exact .inr ⟨n,r,hs,hr,if_neg hr⟩

/-- The first segment is a name. -/
def Grounded (s : List Name) : Prop := ∀ n, s.getLast? = some n → n ≠ []

theorem joined_append (ps qs : List Name) : joined (ps ++ qs) = joined ps ++ joined qs :=
  flatMap_append

theorem written_reverse (s : List Name) :
    (written s).reverse = if s = [] then ['/'] else joined s.reverse := by
  rw [written]
  split
  · rfl
  rename_i hne
  clear hne
  induction s with
  | nil => rfl
  | cons n s ih =>
    rw [flatMap_cons,reverse_append,ih,reverse_cons,joined_append,reverse_append,
      reverse_reverse]
    show _ = joined s.reverse ++ ('/' :: (n ++ []))
    rw [append_nil]
    rfl

theorem written_cons (n : Name) (s : List Name) :
    written (n :: s) = n.reverse ++ '/' :: s.flatMap (·.reverse ++ ['/']) := by
  rw [written,if_neg (cons_ne_nil n s),flatMap_cons,append_assoc]
  rfl

theorem written_of_ne_nil (h : s ≠ []) : written s = s.flatMap (·.reverse ++ ['/']) :=
  if_neg h

theorem grounded_nil : Grounded [] := fun n hn => by cases hn

theorem grounded_cons (hne : s ≠ []) : Grounded (n :: s) ↔ Grounded s := by
  obtain ⟨m,s,rfl⟩ := exists_cons_of_ne_nil hne
  rw [Grounded,getLast?_cons_cons,Grounded]

theorem Grounded.advance (h : Grounded s) (hname : ∀ n, x = .into n → n ≠ []) :
    Grounded (advance s x) := by
  cases x with
  | stay => exact h
  | up =>
    show Grounded (retreat s)
    rcases retreat_cases s with he | ⟨n,r,hs,hne,he⟩
    · exact he ▸ grounded_nil
    · rw [he,grounded_cons hne]
      rcases hs with rfl | rfl
      · exact (grounded_cons hne).mp h
      · exact (grounded_cons hne).mp ((grounded_cons (cons_ne_nil n r)).mp h)
  | into n =>
    cases s with
    | nil =>
      intro m hm
      cases hm
      exact hname n rfl
    | cons m s => exact (grounded_cons (cons_ne_nil m s)).mpr h

theorem Grounded.one_lt (h : Grounded s) : 1 < (written s).length ↔ s ≠ [] := by
  cases s with
  | nil => simp [written]
  | cons n s =>
    rw [written_cons]
    refine ⟨fun _ => cons_ne_nil n s,fun _ => ?_⟩
    cases n with
    | cons c cs =>
      simp only [reverse_cons,length_append,length_cons,length_nil]
      omega
    | nil =>
      cases s with
      | nil => exact absurd rfl (h [] rfl)
      | cons m s =>
        simp only [flatMap_cons,length_append,length_cons,length_nil]
        omega

theorem rewind_name (h : '/' ∉ p) (rest : List Char) : rewind (p ++ '/' :: rest) = '/' :: rest := by
  induction p with
  | nil =>
    cases rest with
    | nil => rfl
    | cons c cs => rfl
  | cons c cs ih =>
    obtain ⟨hc,hcs⟩ := ne_and_not_mem_of_not_mem_cons h
    have hstep : rewind (c :: (cs ++ '/' :: rest)) = rewind (cs ++ '/' :: rest) := by
      cases cs with
      | nil => rw [nil_append,rewind,if_neg (Ne.symm hc)]
      | cons d ds => rw [cons_append,rewind,if_neg (Ne.symm hc)]
    rw [cons_append,hstep,ih hcs]

/-- The cursor at the end of a segment, or inside it, backs up to the slash before it. -/
theorem rewind_blank (h : '/' ∉ p) (n : Name) (s : List Name) :
    rewind (p ++ '/' :: s.flatMap (·.reverse ++ ['/'])) = written (blank (n :: s)) := by
  rw [rewind_name h,blank]
  split
  · rename_i hs
    subst hs
    rfl
  · rfl

theorem rewind_written (hs : ∀ n ∈ s, '/' ∉ n) (h : Grounded s) (hne : s ≠ []) :
    rewind (written s).tail = written (retreat s) := by
  obtain ⟨n,s,rfl⟩ := exists_cons_of_ne_nil hne
  obtain ⟨hn,htail⟩ := forall_mem_cons.mp hs
  rw [written_cons]
  cases n with
  | nil =>
    cases s with
    | nil => exact absurd rfl (h [] rfl)
    | cons m s =>
      have hm : '/' ∉ m.reverse := fun hmem =>
        htail m mem_cons_self (mem_reverse.mp hmem)
      rw [flatMap_cons,append_assoc]
      exact rewind_blank hm m s
  | cons c cs =>
    have hrev : ∃ d p, (c :: cs).reverse = d :: p ∧ '/' ∉ p := by
      obtain ⟨d,p,hp⟩ := exists_cons_of_ne_nil (reverse_ne_nil_iff.mpr (cons_ne_nil c cs))
      refine ⟨d,p,hp,fun hmem => hn (mem_reverse.mp ?_)⟩
      rw [hp]
      exact mem_cons_of_mem _ hmem
    obtain ⟨d,p,hp,hslash⟩ := hrev
    rw [hp]
    exact rewind_blank hslash (c :: cs) s

theorem foldl_put (h : out.length + p.length ≤ OUT_LEN) : p.foldl put out = p.reverse ++ out := by
  induction p generalizing out with
  | nil => rfl
  | cons c cs ih =>
    rw [length_cons] at h
    have hput : put out c = c :: out := if_pos (by omega)
    rw [foldl_cons,hput,ih (by rw [length_cons]; omega),reverse_cons,append_assoc]
    rfl

theorem length_written (h : s ≠ []) : (written s).length = (joined s).length := by
  rw [written_of_ne_nil h]
  clear h
  induction s with
  | nil => rfl
  | cons n s ih =>
    rw [flatMap_cons,length_append,ih,length_append,length_reverse,
      length_singleton,length_joined_cons]
    omega

/-- A turn of the loop, as long as the buffer has room. -/
theorem normalizeSegment_written (hs : ∀ n ∈ s, '/' ∉ n) (h : Grounded s)
    (hroom : (joined (p :: s)).length ≤ OUT_LEN) :
    normalizeSegment (written s) p = written (advance s (hop p)) := by
  rw [normalizeSegment,hop]
  split
  · rfl
  split
  · split
    · rename_i hlt
      exact rewind_written hs h (h.one_lt.mp hlt)
    · rename_i hle
      rw [not_not.mp (mt h.one_lt.mpr hle)]
      rfl
  show _ = written (p :: s)
  rw [length_joined_cons] at hroom
  rw [written_cons]
  split
  · rename_i hlt
    have hne := h.one_lt.mp hlt
    have hput : put (written s) '/' = '/' :: written s := if_pos (by rw [length_written hne]; omega)
    rw [hput,foldl_put (by rw [length_cons,length_written hne]; omega),written_of_ne_nil hne]
  rename_i hle
  rw [not_not.mp (mt h.one_lt.mpr hle)] at hroom ⊢
  show p.foldl put ['/'] = _
  rw [foldl_put (by rw [length_singleton]; omega)]
  rfl

/-- The segments after the hops of a path. -/
def track (s : List Name) (hs : List (Hop Name)) : List Name := hs.foldl advance s

theorem length_retreat (s : List Name) : (joined (retreat s)).length ≤ (joined s).length := by
  rcases retreat_cases s with he | ⟨n,r,hs,-,he⟩
  · rw [he]
    exact zero_le _
  rw [he,length_joined_cons,length_nil]
  rcases hs with rfl | rfl
  · rw [length_joined_cons]
    omega
  · rw [length_joined_cons,length_joined_cons]
    omega

theorem length_advance (s : List Name) (p : Name) :
    (joined (advance s (hop p))).length ≤ (joined (p :: s)).length := by
  rw [length_joined_cons]
  cases hh : hop p with
  | stay =>
    show (joined s).length ≤ _
    omega
  | up =>
    have := length_retreat s
    show (joined (retreat s)).length ≤ _
    omega
  | into n =>
    rw [hop_eq_into hh]
    show (joined (n :: s)).length ≤ _
    rw [length_joined_cons]

theorem mem_advance (h : n ∈ advance s x) : n = [] ∨ n ∈ s ∨ x = .into n := by
  cases x with
  | stay => exact .inr (.inl h)
  | up =>
    change n ∈ retreat s at h
    rcases retreat_cases s with he | ⟨m,r,hs,-,he⟩
    · rw [he] at h
      cases h
    rw [he] at h
    refine (mem_cons.mp h).imp_right fun h => .inl ?_
    rcases hs with rfl | rfl
    · exact mem_cons_of_mem _ h
    · exact mem_cons_of_mem _ (mem_cons_of_mem _ h)
  | into m =>
    rcases mem_cons.mp h with rfl | h
    · exact .inr (.inr rfl)
    · exact .inr (.inl h)

theorem mem_track (h : n ∈ track s hs) : n = [] ∨ n ∈ s ∨ .into n ∈ hs := by
  induction hs generalizing s with
  | nil => exact .inr (.inl h)
  | cons x hs ih =>
    rcases ih h with h | h | h
    · exact .inl h
    · rcases mem_advance h with h | h | h
      · exact .inl h
      · exact .inr (.inl h)
      · exact .inr (.inr (h ▸ mem_cons_self))
    · exact .inr (.inr (mem_cons_of_mem x h))

theorem foldl_normalizeSegment (hps : ∀ p ∈ ps, p ≠ [] ∧ '/' ∉ p) (hs : ∀ n ∈ s, '/' ∉ n)
    (h : Grounded s) (hroom : (joined ps).length + (joined s).length ≤ OUT_LEN) :
    ps.foldl normalizeSegment (written s) = written (track s (ps.map hop)) ∧
      (joined (track s (ps.map hop))).length ≤ OUT_LEN := by
  induction ps generalizing s with
  | nil => exact ⟨rfl,le_trans (le_add_left _ _) hroom⟩
  | cons p ps ih =>
    obtain ⟨⟨hne,hp⟩,htail⟩ := forall_mem_cons.mp hps
    have hadv := length_advance s p
    have hcons := length_joined_cons p s
    rw [length_joined_cons] at hroom
    rw [foldl_cons,normalizeSegment_written hs h (by omega)]
    refine ih htail (fun n hn => ?_) (h.advance fun n hn => hop_eq_into hn ▸ hne) (by omega)
    rcases mem_advance hn with rfl | hn | hn
    · exact not_mem_nil
    · exact hs n hn
    · exact hop_eq_into hn ▸ hp

/-! ### When the cursor is right -/

/-- How many `..` it takes to be at the root, after hops from where it takes `n`. One `..` takes back
a name, but a name that follows a `..` which has not reached the root is taken back by two: `back`
says that the last hop was such a `..`. -/
def toRoot {κ : Type*} : Nat → Bool → List (Hop κ) → Nat
  | n, _, [] => n
  | n, back, .stay :: hs => toRoot n back hs
  | n, _, .up :: hs => toRoot (n-1) true hs
  | n, back, .into _ :: hs => toRoot (if back ∧ 0 < n then n+2 else n+1) false hs

/-- A path up to its last `..`. -/
def lastUp {κ : Type*} [DecidableEq κ] (hs : List (Hop κ)) : List (Hop κ) :=
  (hs.reverse.dropWhile (· ≠ .up)).reverse

/-- The path has no `..`, or its last one leads to the root. -/
def EndsAtRoot (path : Path) : Prop := toRoot 0 false (lastUp (pieceHops (pieces path))) = 0

instance (path : Path) : Decidable (EndsAtRoot path) := inferInstanceAs (Decidable (_ = _))

theorem lastUp_split {κ : Type*} [DecidableEq κ] (hs : List (Hop κ)) :
    ∃ v, hs = lastUp hs ++ v ∧ .up ∉ v ∧ (lastUp hs = [] ∨ ∃ u, lastUp hs = u ++ [.up]) := by
  have hsplit := takeWhile_append_dropWhile (p := fun h : Hop κ => decide (h ≠ .up)) (l := hs.reverse)
  refine ⟨(hs.reverse.takeWhile (· ≠ .up)).reverse,?_,fun hmem => ?_,?_⟩
  · have := congrArg List.reverse hsplit
    rw [reverse_append,reverse_reverse] at this
    exact this.symm
  · have := mem_takeWhile_imp (mem_reverse.mp hmem)
    simp at this
  · rw [lastUp]
    cases hd : hs.reverse.dropWhile (· ≠ .up) with
    | nil => exact .inl rfl
    | cons h r =>
      have hh : h = .up := by
        have := head?_dropWhile_not (fun h : Hop κ => decide (h ≠ .up)) hs.reverse
        rw [hd] at this
        simpa using this
      subst hh
      exact .inr ⟨r.reverse,reverse_cons⟩

/-- The number of `..` that lead from these segments to the root. -/
def level : List Name → Nat
  | [] => 0
  | n :: s => if n = [] then s.length else s.length+1

def backed (s : List Name) : Bool := s.head? == some []

theorem Grounded.level_eq_zero (h : Grounded s) : level s = 0 ↔ s = [] := by
  cases s with
  | nil => exact iff_of_true rfl rfl
  | cons n s =>
    refine iff_of_false (fun hz => ?_) (cons_ne_nil n s)
    rw [level] at hz
    split at hz
    · rename_i hn
      rw [length_eq_zero_iff.mp hz] at h
      exact h n rfl hn
    · cases hz

theorem level_blank (s : List Name) : level (blank s) = s.length-1 := by
  cases s with
  | nil => rfl
  | cons n r =>
    rw [blank]
    split
    · rename_i hr
      rw [hr]
      rfl
    · rfl

theorem level_retreat (s : List Name) : level (retreat s) = level s-1 := by
  unfold retreat
  split
  · rw [level_blank,level,if_pos rfl]
  rename_i hs
  rw [level_blank]
  cases s with
  | nil => rfl
  | cons n r =>
    rw [level,if_neg fun hn => hs r (congrArg (· :: r) hn)]
    rfl

theorem retreat_clean : [] ∉ retreat s ↔ retreat s = [] := by
  rcases retreat_cases s with h | ⟨_,r,-,-,h⟩
  · rw [h]
    exact iff_of_true not_mem_nil rfl
  · rw [h]
    exact iff_of_false (not_not.mpr mem_cons_self) (cons_ne_nil _ _)

/-- Every name of a path is one. -/
def Named (hs : List (Hop Name)) : Prop := ∀ n, .into n ∈ hs → n ≠ []

theorem Named.tail (h : Named (x :: hs)) : Named hs :=
  fun n hn => h n (mem_cons_of_mem x hn)

theorem Named.head (h : Named (x :: hs)) : ∀ n, x = .into n → n ≠ [] :=
  fun n hn => h n (hn ▸ mem_cons_self)

theorem Grounded.track (h : Grounded s) (hn : Named hs) : Grounded (track s hs) := by
  induction hs generalizing s with
  | nil => exact h
  | cons x hs ih => exact ih (h.advance hn.head) hn.tail

theorem backed_retreat (h : Grounded (retreat s)) :
    backed (retreat s) = true ↔ 0 < level (retreat s) := by
  rcases retreat_cases s with he | ⟨_,r,-,-,he⟩
  · rw [he]
    exact iff_of_false Bool.false_ne_true (lt_irrefl 0)
  · rw [he] at h ⊢
    exact iff_of_true rfl (Nat.pos_of_ne_zero fun hz => cons_ne_nil _ _ (h.level_eq_zero.mp hz))

/-- The count that `toRoot` keeps is that of the buffer. -/
theorem level_track {back : Bool} (h : Grounded s) (hn : Named hs)
    (hback : backed s = true ↔ back = true ∧ 0 < level s) :
    level (track s hs) = toRoot (level s) back hs := by
  induction hs generalizing s back with
  | nil => rfl
  | cons x hs ih =>
    cases x with
    | stay => exact ih h hn.tail hback
    | up =>
      have hg : Grounded (retreat s) := h.advance hn.head
      show level (track (retreat s) hs) = toRoot (level s-1) true hs
      rw [← level_retreat]
      refine ih hg hn.tail ((backed_retreat hg).trans ?_)
      rw [eq_self_iff_true,true_and]
    | into n =>
      have hne := hn n mem_cons_self
      have hlevel : level (n :: s) = if back = true ∧ 0 < level s then level s+2 else level s+1 := by
        rw [level,if_neg hne]
        split
        · rename_i hb
          obtain ⟨r,rfl⟩ : ∃ r, s = [] :: r := by
            have := hback.mpr hb
            cases s with
            | nil => cases this
            | cons m r => exact ⟨r,congrArg (· :: r) (by simpa [backed] using this)⟩
          rw [level,if_pos rfl,length_cons]
        rename_i hb
        cases s with
        | nil => rfl
        | cons m r =>
          rw [level,if_neg fun hm => hb (hback.mp (by rw [hm]; rfl))]
          rfl
      show level (track (n :: s) hs) = _
      rw [toRoot,← hlevel]
      refine ih (h.advance hn.head) hn.tail (iff_of_false ?_ ?_)
      · simpa [backed] using hne
      · exact fun hb => Bool.false_ne_true hb.1

theorem track_append (s : List Name) (u v : List (Hop Name)) :
    track s (u ++ v) = track (track s u) v := foldl_append

theorem clean_track {v : List (Hop Name)} (hn : Named v) (hup : .up ∉ v) :
    [] ∉ track s v ↔ [] ∉ s := by
  induction v generalizing s with
  | nil => exact Iff.rfl
  | cons x v ih =>
    have hup' : .up ∉ v := fun h => hup (mem_cons_of_mem x h)
    cases x with
    | stay => exact ih hn.tail hup'
    | up => exact absurd mem_cons_self hup
    | into n =>
      refine (ih (s := n :: s) hn.tail hup').trans (not_congr ?_)
      rw [mem_cons,or_iff_right]
      exact fun he => hn n mem_cons_self he.symm

/-- No slash too many is left exactly if the last `..` leads to the root. -/
theorem clean_iff (hn : Named hs) : [] ∉ track [] hs ↔ toRoot 0 false (lastUp hs) = 0 := by
  obtain ⟨v,hsplit,hup,hlast⟩ := lastUp_split hs
  generalize lastUp hs = u at hsplit hlast
  subst hsplit
  have hnu : Named u := fun n hu => hn n (mem_append_left v hu)
  have hnv : Named v := fun n hv => hn n (mem_append_right u hv)
  have hlevel : level (track [] u) = toRoot 0 false u :=
    level_track grounded_nil hnu (iff_of_false Bool.false_ne_true fun h => Bool.false_ne_true h.1)
  rw [track_append,clean_track hnv hup,← hlevel,(grounded_nil.track hnu).level_eq_zero]
  rcases hlast with rfl | ⟨w,rfl⟩
  · exact iff_of_true not_mem_nil rfl
  · rw [track_append]
    exact retreat_clean

/-- Where no slash too many is left, the segments are those of the canonical form. -/
theorem track_lexical {k : List Name} (h : Grounded s) (hn : Named hs) (hlevel : k.length ≤ level s)
    (hclean : [] ∉ s → s = k) : [] ∉ track s hs → track s hs = lexical k hs := by
  induction hs generalizing s k with
  | nil => exact hclean
  | cons x hs ih =>
    have hg := h.advance hn.head
    cases x with
    | stay => exact ih h hn.tail hlevel hclean
    | up =>
      have hle : k.tail.length ≤ level (retreat s) := by
        rw [level_retreat,length_tail]
        omega
      refine ih hg hn.tail hle fun hc => ?_
      have hnil := retreat_clean.mp hc
      rw [hnil] at hle
      show retreat s = _
      rw [hnil,eq_nil_of_length_eq_zero (le_zero.mp hle)]
    | into n =>
      refine ih hg hn.tail ?_ fun hc => congrArg (n :: ·) (hclean fun hs => hc (mem_cons_of_mem n hs))
      show k.length+1 ≤ level (n :: s)
      rw [level,if_neg (hn n mem_cons_self)]
      have : level s ≤ s.length := by
        cases s with
        | nil => exact le_refl 0
        | cons m r =>
          rw [level,length_cons]
          split <;> omega
      omega

/-! ### The result and the canonical form -/

/-- A path from the root through names. -/
def fromRoot (ps : List Name) : Path := if ps = [] then ['/'] else joined ps

theorem pieces_fromRoot (h : ∀ n ∈ ps, '/' ∉ n) :
    pieces (fromRoot ps) = if ps = [] then [[]] else ps := by
  rw [fromRoot]
  split
  · rfl
  · rename_i hne
    exact pieces_joined hne h

theorem fromRoot_inj {qs : List Name} (hps : ∀ n ∈ ps, '/' ∉ n) (hqs : ∀ n ∈ qs, '/' ∉ n)
    (hp : ps ≠ [[]]) (hq : qs ≠ [[]]) (h : fromRoot ps = fromRoot qs) : ps = qs := by
  have hpieces := congrArg pieces h
  rw [pieces_fromRoot hps,pieces_fromRoot hqs] at hpieces
  split at hpieces
  · rename_i hnil
    split at hpieces
    · rename_i hnil'
      rw [hnil,hnil']
    · exact absurd hpieces.symm hq
  · split at hpieces
    · exact absurd hpieces hp
    · exact hpieces

section Law

variable {path : Path}

/-- The segments in the buffer at the end. -/
def kept (path : Path) : List Name := (track [] (pieceHops (pieces path))).reverse

theorem named_pieces (ps : List Name) : Named (pieceHops ps) := by
  intro n hn
  obtain ⟨p,hp,he⟩ := mem_map.mp hn
  rw [← hop_eq_into he]
  simpa using (mem_filter.mp hp).2

theorem length_joined_filter (f : Name → Bool) (ps : List Name) :
    (joined (ps.filter f)).length ≤ (joined ps).length := by
  induction ps with
  | nil => exact le_refl _
  | cons p ps ih =>
    rw [filter_cons,length_joined_cons]
    split
    · rw [length_joined_cons]
      omega
    · omega

theorem normalizePath_kept (habs : isAbsolute path) (hlen : path.length ≤ OUT_LEN) :
    normalizePath path = fromRoot (kept path) ∧
      (joined (track [] (pieceHops (pieces path)))).length ≤ OUT_LEN := by
  have hslash : ∀ p ∈ pieces path, '/' ∉ p := slash_notMem_splitSlash _
  have hroom := length_joined_filter (· ≠ []) (pieces path)
  have hloop : normalizeLoop _ (written []) (joined (pieces path)) = _ :=
    normalizeLoop_joined hslash (le_refl _)
  rw [joined_pieces habs] at hloop hroom
  have hnames : ∀ p ∈ (pieces path).filter (· ≠ []), p ≠ [] ∧ '/' ∉ p := by
    intro p hp
    obtain ⟨hmem,hne⟩ := mem_filter.mp hp
    exact ⟨by simpa using hne,hslash p hmem⟩
  have hwalk := foldl_normalizeSegment hnames (forall_mem_nil _) grounded_nil
    (le_trans hroom hlen)
  refine ⟨?_,hwalk.2⟩
  show (normalizeLoop path.length (written []) path).reverse = _
  rw [hloop,hwalk.1,written_reverse,fromRoot,kept,pieceHops]
  simp only [reverse_eq_nil_iff]

theorem mem_kept {n : Name} (h : n ∈ kept path) : '/' ∉ n ∧ (n ≠ [] → hop n = .into n) := by
  rcases mem_track (mem_reverse.mp h) with rfl | h | h
  · exact ⟨not_mem_nil,fun h => absurd rfl h⟩
  · cases h
  · obtain ⟨p,hp,he⟩ := mem_map.mp h
    obtain rfl := hop_eq_into he
    exact ⟨slash_notMem_splitSlash _ p (mem_filter.mp hp).1,fun _ => he⟩

theorem kept_ne (path : Path) : kept path ≠ [[]] := by
  have hg : Grounded (track [] (pieceHops (pieces path))) :=
    grounded_nil.track (named_pieces _)
  intro h
  have htrack : track [] (pieceHops (pieces path)) = [[]] := reverse_injective h
  rw [htrack] at hg
  exact hg [] rfl rfl

theorem kept_clean : [] ∉ kept path ↔ EndsAtRoot path := by
  rw [EndsAtRoot,← clean_iff (named_pieces _),kept,mem_reverse]

/-- A path of names has no slash too many. -/
theorem clean_of_fromRoot_eq {qs : List Name} (hqs : ∀ n ∈ qs, '/' ∉ n ∧ n ≠ [])
    (h : fromRoot (kept path) = fromRoot qs) : [] ∉ kept path := by
  have heq := fromRoot_inj (fun n hn => (mem_kept hn).1) (fun n hn => (hqs n hn).1) (kept_ne path)
    (fun hc => (hqs [] (hc ▸ mem_singleton_self [])).2 rfl) h
  rw [heq]
  exact fun hmem => (hqs [] hmem).2 rfl

section Absolute

variable (habs : isAbsolute path) (hlen : path.length ≤ OUT_LEN)
include habs hlen

theorem normalizePath_eq_canonical : normalizePath path = canonical path ↔ EndsAtRoot path := by
  rw [(normalizePath_kept habs hlen).1]
  constructor
  · intro h
    refine kept_clean.mp (clean_of_fromRoot_eq (fun n hn => ?_) h)
    obtain ⟨hmem,hne,-⟩ := mem_canonicalNames hn
    exact ⟨slash_notMem_splitSlash _ n hmem,hne⟩
  · intro h
    have hclean : [] ∉ track [] (pieceHops (pieces path)) := (clean_iff (named_pieces _)).mpr h
    have heq := track_lexical (k := []) grounded_nil (named_pieces _)
      (le_refl 0) (fun _ => rfl) hclean
    rw [kept,heq]
    rfl

theorem length_normalizePath : (normalizePath path).length ≤ OUT_LEN := by
  obtain ⟨hkept,hroom⟩ := normalizePath_kept habs hlen
  rw [hkept,fromRoot]
  split
  · decide
  rename_i hne
  have hrev := congrArg List.length (written_reverse (track [] (pieceHops (pieces path))))
  have hne' : track [] (pieceHops (pieces path)) ≠ [] := fun h => hne (by rw [kept,h]; rfl)
  rw [length_reverse,length_written hne',if_neg hne'] at hrev
  rw [kept,← hrev]
  exact hroom

theorem isAbsolute_normalizePath : isAbsolute (normalizePath path) := by
  rw [(normalizePath_kept habs hlen).1,fromRoot]
  split
  · rfl
  · rename_i hne
    exact isAbsolute_joined hne

end Absolute

theorem pieceHops_kept : pieceHops (pieces (fromRoot (kept path))) = ((kept path).filter (· ≠ [])).map .into := by
  have hnames : pieceHops (kept path) = ((kept path).filter (· ≠ [])).map .into := by
    refine map_congr_left fun n hn => ?_
    obtain ⟨hmem,hne⟩ := mem_filter.mp hn
    exact (mem_kept hmem).2 (by simpa using hne)
  rw [pieces_fromRoot fun n hn => (mem_kept hn).1]
  split
  · rename_i hnil
    rw [hnil]
    rfl
  · exact hnames

theorem lexical_into {κ : Type*} (s l : List κ) : lexical s (l.map .into) = l.reverse ++ s := by
  induction l generalizing s with
  | nil => rfl
  | cons k l ih =>
    show lexical (k :: s) (l.map .into) = _
    rw [ih,reverse_cons,append_assoc]
    rfl

/-- A second run would take out the slashes that are too many. -/
theorem canonical_fromRoot_kept : canonical (fromRoot (kept path)) = fromRoot ((kept path).filter (· ≠ [])) := by
  have hnames : canonicalNames (pieces (fromRoot (kept path))) = (kept path).filter (· ≠ []) := by
    rw [canonicalNames,pieceHops_kept,lexical_into,append_nil,reverse_reverse]
  show fromRoot (canonicalNames _) = _
  rw [hnames]

theorem canonical_normalizePath (habs : isAbsolute path) (hlen : path.length ≤ OUT_LEN) :
    canonical (normalizePath path) = normalizePath path ↔ EndsAtRoot path := by
  rw [(normalizePath_kept habs hlen).1,canonical_fromRoot_kept,← kept_clean]
  constructor
  · intro h
    refine clean_of_fromRoot_eq (fun n hn => ?_) h.symm
    obtain ⟨hmem,hne⟩ := mem_filter.mp hn
    exact ⟨(mem_kept hmem).1,by simpa using hne⟩
  · intro h
    rw [filter_eq_self.mpr]
    intro n hn
    have hne : n ≠ [] := fun he => h (he ▸ hn)
    simpa using hne

theorem endsAtRoot_normalizePath (habs : isAbsolute path) (hlen : path.length ≤ OUT_LEN) :
    EndsAtRoot (normalizePath path) := by
  have hnamed := named_pieces (pieces (fromRoot (kept path)))
  rw [(normalizePath_kept habs hlen).1,EndsAtRoot,← clean_iff hnamed]
  refine (clean_track hnamed fun hup => ?_).mpr not_mem_nil
  rw [pieceHops_kept] at hup
  obtain ⟨n,-,hn⟩ := mem_map.mp hup
  cases hn

variable {cwd p : Path}

theorem chdirPath_cases (h : chdirPath cwd p = some path) :
    isAbsolute p ∧ p.length < 256 ∧ path = p ∨
      cwd.length+1+p.length+1 < 256 ∧ path = cwd ++ '/' :: p := by
  rw [chdirPath] at h
  split_ifs at h with hp hlen hlen
  · cases h
    exact .inl ⟨hp,not_le.mp hlen,rfl⟩
  · cases h
    exact .inr ⟨not_le.mp hlen,rfl⟩

theorem chdirPath_length (h : chdirPath cwd p = some path) : path.length ≤ OUT_LEN := by
  have hsize : OUT_LEN = 255 := rfl
  rcases chdirPath_cases h with ⟨-,hlen,rfl⟩ | ⟨hlen,rfl⟩
  · omega
  · rw [length_append,length_cons]
    omega

theorem chdirPath_isAbsolute (hcwd : cwd = [] ∨ isAbsolute cwd) (h : chdirPath cwd p = some path) :
    isAbsolute path := by
  rcases chdirPath_cases h with ⟨hp,-,rfl⟩ | ⟨-,rfl⟩
  · exact hp
  · rcases hcwd with rfl | hcwd
    · rfl
    · obtain ⟨q,rfl⟩ := isAbsolute_iff.mp hcwd
      rfl

theorem sysChdir_ok {T : Tree Nat Name} {cwd' : Path} (hp : chdirPath cwd p = some path)
    (h : sysChdir T cwd p = (0,cwd')) : cwd' = normalizePath path := by
  rw [sysChdir,hp] at h
  dsimp only at h
  split at h
  · cases h
  · split at h
    · exact (congrArg Prod.snd h).symm
    · cases h

end Law

/-- The result is the canonical form, normalising again changes nothing, and a working directory
set to it is canonical, exactly if the path has no `..` or its last `..` leads to the root. -/
theorem normalizePath_law {path : Path} (habs : isAbsolute path) (hlen : path.length ≤ 255) :
    (normalizePath path = canonical path ↔ EndsAtRoot path) ∧
      (normalizePath (normalizePath path) = normalizePath path ↔ EndsAtRoot path) ∧
      ∀ T cwd p q cwd', cwd = [] ∨ isAbsolute cwd → chdirPath cwd p = some q →
        sysChdir T cwd p = (0,cwd') → isAbsolute cwd' ∧ (canonical cwd' = cwd' ↔ EndsAtRoot q) := by
  refine ⟨normalizePath_eq_canonical habs hlen,?_,?_⟩
  · have hagain := (normalizePath_eq_canonical (isAbsolute_normalizePath habs hlen)
      (length_normalizePath habs hlen)).mpr (endsAtRoot_normalizePath habs hlen)
    rw [hagain]
    exact canonical_normalizePath habs hlen
  · intro T cwd p q cwd' hcwd hp hdir
    have habs' := chdirPath_isAbsolute hcwd hp
    have hlen' := chdirPath_length hp
    rw [sysChdir_ok hp hdir]
    exact ⟨isAbsolute_normalizePath habs' hlen',canonical_normalizePath habs' hlen'⟩

/-- The `..` of `/a/../b` leads to the root. -/
theorem normalizePath_law_sideways :
    normalizePath ['/','a','/','.','.','/','b'] = canonical ['/','a','/','.','.','/','b'] :=
  (normalizePath_law (rfl : isAbsolute ['/','a','/','.','.','/','b']) (by decide)).1.mpr (by decide)

/-- The `..` of `/a/b/..` stops at `/a`, and the slash behind it stays. A name that follows stands
behind two slashes, and two more `..` from there do not reach the root. -/
theorem normalizePath_keeps_slash :
    normalizePath ['/','a','/','b','/','.','.'] = ['/','a','/'] ∧
      canonical ['/','a','/','b','/','.','.'] = ['/','a'] ∧
      normalizePath ['/','a','/'] = ['/','a'] ∧
      normalizePath ['/','a','/','b','/','.','.','/','c','/','.','.','/','.','.'] = ['/','a','/'] ∧
      canonical ['/','a','/','b','/','.','.','/','c','/','.','.','/','.','.'] = ['/'] := by
  decide

end Lariat.Vfs
