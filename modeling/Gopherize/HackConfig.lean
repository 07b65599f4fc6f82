import Gopherize.Core.Ascii
import Gopherize.Core.Path
import Gopherize.Outer
import Mathlib.Data.List.Lex

/-! The config of gopher.go. A config literal is built by allocating its
categories one by one; the facts about the artwork paths are evaluated over bytes. -/
namespace Gopherize
open GoCore GoCore.Choice

section Literal

def newCategory (slot : Slot) : Exec Heap (Ref Category) := do
  let options ← Heap.onStrings (Slice.literal slot.options)
  let p ← Heap.onCategories (Table.alloc ⟨slot.name, options⟩)
  pure (some p)

/-- The literal `&Config{Categories: []*Category{...}}`. -/
def newConfig (slots : List Slot) : Exec Heap (Ref Config) := do
  let refs ← slots.mapM newCategory
  let categories ← Heap.onCategoryLists (Slice.literal refs)
  let p ← Heap.onConfigs (Table.alloc ⟨categories⟩)
  pure (some p)

theorem newCategory_returns (slot : Slot) (h : Heap) :
    Returns (newCategory slot) h (fun ref k => h ≤ k ∧ k.CategoryAt ref slot) := by
  apply (returns_zoom (Slice.literal_returns slot.options h.strings)).bind
  rintro options _ ⟨t, rfl, grown, denotes⟩
  refine Returns.bind (returns_zoom (Table.alloc_returns _ _)) ?_
  rintro p _ ⟨u, rfl, kept, _, found⟩
  apply returns_pure
  exact ⟨⟨grown, le_rfl, le_rfl, kept, le_rfl⟩, p, _, rfl, found, rfl, denotes⟩

theorem newCategories_returns (slots : List Slot) (h : Heap) :
    Returns (slots.mapM newCategory) h
      (fun refs k => h ≤ k ∧ List.Forall₂ k.CategoryAt refs slots) := by
  induction slots generalizing h with
  | nil => exact returns_pure ⟨le_rfl, .nil⟩
  | cons slot slots ih =>
    rw [List.mapM_cons]
    apply (newCategory_returns slot h).bind
    rintro ref k ⟨grown, category⟩
    apply (ih k).bind
    rintro refs k' ⟨grown', categories⟩
    apply returns_pure
    exact ⟨grown.trans grown', .cons (category.mono grown') categories⟩

/-- Every list of categories is the content of a config in some heap. -/
theorem newConfig_returns (slots : List Slot) (h : Heap) :
    Returns (newConfig slots) h (fun c k => h ≤ k ∧ ∃ refs, k.ConfigAt c refs slots) := by
  apply (newCategories_returns slots h).bind
  rintro refs k ⟨grown, categories⟩
  apply (returns_zoom (Slice.literal_returns refs k.categoryLists)).bind
  rintro list _ ⟨t, rfl, more, denotes⟩
  refine Returns.bind (returns_zoom (Table.alloc_returns _ _)) ?_
  rintro p _ ⟨u, rfl, kept, _, found⟩
  have later : k ≤ { k with categoryLists := t, configs := u } :=
    ⟨le_rfl, more, le_rfl, le_rfl, kept⟩
  apply returns_pure
  exact ⟨grown.trans later, refs, ⟨p, _, rfl, found, denotes⟩,
    categories.imp (fun _ _ category => category.mono later)⟩

end Literal

/-- The categories of `hackConfig`. -/
def hackCategories : List Slot :=
  [
    { name := "Body"
      options := [
        "010-Body/blue_gopher",
        "010-Body/blue_spike_hair",
        "010-Body/brown_gopher",
        "010-Body/green_gopher",
        "010-Body/pink_gopher",
        "010-Body/purple_gopher"] },
    { name := "Eyes"
      options := [
        "020-Eyes/crazy_eyes",
        "020-Eyes/eyelashes",
        "020-Eyes/eyes",
        "020-Eyes/eyes_angry",
        "020-Eyes/goofy_eyes",
        "020-Eyes/looking_left",
        "020-Eyes/looking_right",
        "020-Eyes/looking_up_lashes",
        "020-Eyes/looking_up_no_lashes"] },
    { name := "Shirts"
      options := [
        "",
        "021-Shirts/1_up_shirt",
        "021-Shirts/Octocat",
        "021-Shirts/Octocat_1",
        "021-Shirts/Pivotal",
        "021-Shirts/black_heart_shirt",
        "021-Shirts/black_shirt",
        "021-Shirts/docker_shirt",
        "021-Shirts/emc_code",
        "021-Shirts/emc_code_shirt",
        "021-Shirts/freebsd_beastie",
        "021-Shirts/freebsd_shirt",
        "021-Shirts/game_over_shirt",
        "021-Shirts/gay_pride_shirt",
        "021-Shirts/girls_who_code_shirt",
        "021-Shirts/github",
        "021-Shirts/go_academy_shirt",
        "021-Shirts/gobuffalo_shirt",
        "021-Shirts/golang_news",
        "021-Shirts/golang_shirt",
        "021-Shirts/google_shirt",
        "021-Shirts/gopher_BBQ",
        "021-Shirts/gopher_starwars_shirt",
        "021-Shirts/gophercon_shirt",
        "021-Shirts/gotham_go_shirt",
        "021-Shirts/gotime",
        "021-Shirts/grey_shirt",
        "021-Shirts/groove_shirt",
        "021-Shirts/hawaiian_shirt",
        "021-Shirts/hawaiian_shirt_solid",
        "021-Shirts/heman_shirt",
        "021-Shirts/influx_db",
        "021-Shirts/kubernetes_shirt",
        "021-Shirts/linux_shirt",
        "021-Shirts/my_little_pony_shirt",
        "021-Shirts/new_relic_nerd_life",
        "021-Shirts/objectrocket_shirt",
        "021-Shirts/pacman_shirt",
        "021-Shirts/pacman_shirt_1",
        "021-Shirts/php_shirt",
        "021-Shirts/pink_rainbow_shirt",
        "021-Shirts/pink_shirt",
        "021-Shirts/rainbow_brite",
        "021-Shirts/shera_shirt",
        "021-Shirts/skull_and_crossbones",
        "021-Shirts/star_shirt",
        "021-Shirts/tetris",
        "021-Shirts/the_channellog",
        "021-Shirts/tuxedo",
        "021-Shirts/ubuntu",
        "021-Shirts/women_who_go",
        "021-Shirts/women_who_go_berlin",
        "021-Shirts/write_the_docs",
        "021-Shirts/zelda"] },
    { name := "Hair"
      options := [
        "",
        "022-Hair/ash_blonde_hair",
        "022-Hair/black_hair",
        "022-Hair/blonde_bangs",
        "022-Hair/blonde_hair_blue_ears",
        "022-Hair/blonde_hair_pink_ears",
        "022-Hair/blonde_swoop_hair",
        "022-Hair/blue_ear_afro",
        "022-Hair/blue_ear_curly_hair",
        "022-Hair/brian_ketelsen_hair",
        "022-Hair/brown_hair_bangs",
        "022-Hair/brown_hair_blue_ears",
        "022-Hair/brown_hair_ears_blue",
        "022-Hair/brown_hair_long",
        "022-Hair/brown_hair_pink_ears",
        "022-Hair/brown_hawk",
        "022-Hair/brown_mohawk",
        "022-Hair/brown_swoop_hair",
        "022-Hair/center_brown_hair",
        "022-Hair/combed_front_brown_hair",
        "022-Hair/combed_front_grey_hair",
        "022-Hair/combed_left_red_hair",
        "022-Hair/combed_side_hair",
        "022-Hair/curly_blonde",
        "022-Hair/curly_red",
        "022-Hair/guy_short_black_hair",
        "022-Hair/hair_black",
        "022-Hair/hair_blonde",
        "022-Hair/hair_brown",
        "022-Hair/hair_red",
        "022-Hair/hipster_hair",
        "022-Hair/hipster_pack",
        "022-Hair/lavender_bangs",
        "022-Hair/long_blonde_hair",
        "022-Hair/long_dark_brown_hair",
        "022-Hair/man_bun",
        "022-Hair/pink_bangs",
        "022-Hair/pink_ear_afro",
        "022-Hair/pink_ear_curly_hair",
        "022-Hair/pink_hair_blue_ears",
        "022-Hair/pink_hair_pink_ears",
        "022-Hair/pink_unicorn",
        "022-Hair/rainbow_hair",
        "022-Hair/rainbow_unicorn",
        "022-Hair/rakyll_hair",
        "022-Hair/red_bangs",
        "022-Hair/red_hair_blue_ears",
        "022-Hair/red_hair_pink_ears",
        "022-Hair/red_hipster_hair",
        "022-Hair/red_mohawk",
        "022-Hair/red_swoop_hair",
        "022-Hair/side_hair",
        "022-Hair/the_dave_cheney_beard",
        "022-Hair/trump_hair"] },
    { name := "Facial Hair"
      options := [
        "",
        "023-Facial_Hair/black_beard",
        "023-Facial_Hair/black_moustache",
        "023-Facial_Hair/black_stache",
        "023-Facial_Hair/blonde_beard",
        "023-Facial_Hair/blonde_moustache",
        "023-Facial_Hair/blonde_stache",
        "023-Facial_Hair/brown_beard",
        "023-Facial_Hair/brown_beard_1",
        "023-Facial_Hair/brown_beard_medium",
        "023-Facial_Hair/brown_moustache",
        "023-Facial_Hair/brown_pirate_beard",
        "023-Facial_Hair/brown_stache",
        "023-Facial_Hair/detailed_blonde_beard",
        "023-Facial_Hair/extra_long_brown_beard",
        "023-Facial_Hair/full_ash_blonde_beard",
        "023-Facial_Hair/full_blonde_beard",
        "023-Facial_Hair/full_red_beard",
        "023-Facial_Hair/full_redish_beard",
        "023-Facial_Hair/grey_stache",
        "023-Facial_Hair/mat_ryer_pirate_beard",
        "023-Facial_Hair/moustache_red",
        "023-Facial_Hair/multi_colored_beard",
        "023-Facial_Hair/red_beard",
        "023-Facial_Hair/red_soul_patch",
        "023-Facial_Hair/short_black_beard",
        "023-Facial_Hair/short_black_beard1",
        "023-Facial_Hair/short_blonde_beard",
        "023-Facial_Hair/short_copper_beard",
        "023-Facial_Hair/short_full_black_beard",
        "023-Facial_Hair/short_full_blonde_beard",
        "023-Facial_Hair/short_full_grey_beard",
        "023-Facial_Hair/short_full_red_beard",
        "023-Facial_Hair/small_brown_stache",
        "023-Facial_Hair/straight_stache",
        "023-Facial_Hair/stubble",
        "023-Facial_Hair/this_weird_thing"] },
    { name := "Glasses"
      options := [
        "",
        "024-Glasses/all_black_sunglasses",
        "024-Glasses/black_rimmed_glasses",
        "024-Glasses/blue_lenses",
        "024-Glasses/blue_sunglasses",
        "024-Glasses/funky_glasses",
        "024-Glasses/funky_green_glasses",
        "024-Glasses/green_lenses",
        "024-Glasses/heart_glasses",
        "024-Glasses/hipster_glasses1",
        "024-Glasses/movie_glasses",
        "024-Glasses/nerd_glasses",
        "024-Glasses/pink_lenses",
        "024-Glasses/red_glasses",
        "024-Glasses/red_sunglasses",
        "024-Glasses/round_black_rimmed_glasses",
        "024-Glasses/round_glasses",
        "024-Glasses/round_red_sunglasses",
        "024-Glasses/small_black_sunglasses",
        "024-Glasses/square_glasses",
        "024-Glasses/square_glasses1",
        "024-Glasses/sunglasses"] },
    { name := "Hats and Hair Accessories"
      options := [
        "",
        "025-Hats_and_Hair_Accessories/Large_black_yellow_bow",
        "025-Hats_and_Hair_Accessories/bandana",
        "025-Hats_and_Hair_Accessories/bat_gopher",
        "025-Hats_and_Hair_Accessories/beanie",
        "025-Hats_and_Hair_Accessories/birthday_hat",
        "025-Hats_and_Hair_Accessories/bunny_ears",
        "025-Hats_and_Hair_Accessories/cat_ears",
        "025-Hats_and_Hair_Accessories/flower_headband",
        "025-Hats_and_Hair_Accessories/gobuffalo_costume",
        "025-Hats_and_Hair_Accessories/graduation",
        "025-Hats_and_Hair_Accessories/headband",
        "025-Hats_and_Hair_Accessories/king_queen",
        "025-Hats_and_Hair_Accessories/moar_viking",
        "025-Hats_and_Hair_Accessories/pink_flower_headband",
        "025-Hats_and_Hair_Accessories/pirate_hat",
        "025-Hats_and_Hair_Accessories/ponzu_cms_costume",
        "025-Hats_and_Hair_Accessories/purple_bow",
        "025-Hats_and_Hair_Accessories/purple_flower",
        "025-Hats_and_Hair_Accessories/ship_captain",
        "025-Hats_and_Hair_Accessories/skull_bandana",
        "025-Hats_and_Hair_Accessories/stay_puft",
        "025-Hats_and_Hair_Accessories/steampunk_tophat",
        "025-Hats_and_Hair_Accessories/the_bill_kennedy",
        "025-Hats_and_Hair_Accessories/unicorn_horn_pink",
        "025-Hats_and_Hair_Accessories/viking_hat",
        "025-Hats_and_Hair_Accessories/wicked_tophat",
        "025-Hats_and_Hair_Accessories/yarmulke",
        "025-Hats_and_Hair_Accessories/yellow_bow"] },
    { name := "Extras"
      options := [
        "",
        "027-Extras/Large_black_yellow_bow",
        "027-Extras/bowtie",
        "027-Extras/camera",
        "027-Extras/captain_america",
        "027-Extras/cellphone",
        "027-Extras/coffee",
        "027-Extras/gamer",
        "027-Extras/heart_lolli",
        "027-Extras/laptop",
        "027-Extras/lightsaber",
        "027-Extras/magic_wand",
        "027-Extras/moustache_pipe",
        "027-Extras/necklace",
        "027-Extras/popcorn",
        "027-Extras/red_polkadot_bow",
        "027-Extras/soda",
        "027-Extras/steampunk_glasses",
        "027-Extras/stripe_bowtie",
        "027-Extras/to_go_coffee",
        "027-Extras/unicorn_horn_pink",
        "027-Extras/valentines",
        "027-Extras/watch",
        "027-Extras/yellow_polkadot_bow"] } ]


theorem hackConfig_returns : Returns (newConfig hackCategories) Heap.empty
    (fun c h => ∃ refs, h.ConfigAt c refs hackCategories) :=
  (newConfig_returns hackCategories Heap.empty).mono (fun _ _ facts => facts.2)

/-- The conditions on artwork paths, over the bytes of the strings. -/
def Tidy (options : List (List (List Nat))) : Prop :=
  Ascending [] options ∧ ∀ values ∈ options, ∀ path ∈ values, path ≠ [] →
    (∀ b ∈ path, b < 128) ∧ Path.CleanPath (path.map Char.ofNat)

instance : DecidablePred Tidy := fun _ => inferInstanceAs (Decidable (Ascending _ _ ∧ _))

theorem hackCategories_tidy : Tidy ((optionsOf hackCategories).map (List.map Ascii.bytes)) := by
  decide +kernel

theorem hackCategories_wellFormed : Selection.WellFormed (optionsOf hackCategories) where
  two := by decide
  nonempty := by decide
  blank i values found far := by
    have first : ∀ values ∈ (optionsOf hackCategories).drop 2, values.head? = some "" := by decide
    have later : ((optionsOf hackCategories).drop 2)[i - 2]? = some values := by
      rw [List.getElem?_drop, Nat.add_sub_cancel' far]
      exact found
    exact List.mem_of_mem_head? (first values (List.mem_of_getElem? later))

theorem hackCategories_nodup : ∀ values ∈ optionsOf hackCategories, values.Nodup :=
  nodup_of_encoding hackCategories_tidy.1.nodup

theorem hackCategories_apart : Apart "" (optionsOf hackCategories) :=
  Apart.of_encoding Ascii.bytes_injective hackCategories_tidy.1.apart

theorem hackCategories_cleanPath : ∀ values ∈ optionsOf hackCategories, ∀ path ∈ values, path ≠ "" →
    Path.CleanPath path.toList := by
  intro values member path inside solid
  have encoded : Ascii.bytes path ≠ [] := Ascii.bytes_injective.ne solid
  obtain ⟨ascii, clean⟩ := hackCategories_tidy.2 _ (List.mem_map_of_mem member) _
    (List.mem_map_of_mem inside) encoded
  rw [Ascii.toList_of_ascii ascii]
  exact clean

end Gopherize
