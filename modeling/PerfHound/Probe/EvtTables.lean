/-
# The event tables

`UMASK_LIST` and `EVENT_LIST` of the x86 event parser, in the order of the source. An
event points into the first table, where its unit masks go up to a row without a name.
-/

import PerfHound.Core

namespace PerfHound

namespace EvtX86

structure PhUmask where
  umaskVal : U64
  name : Option String
  deriving DecidableEq, Repr

structure PhEvent where
  evtNum : U64
  /-- The index of the first unit mask. -/
  umasks : ℕ
  name : String
  deriving DecidableEq, Repr

def umaskList : List PhUmask :=
  [
    ⟨0x02, "store_forward"⟩, ⟨0x08, "no_sr"⟩, ⟨0x00, none⟩,
    ⟨0x01, "loads"⟩, ⟨0x02, "stores"⟩, ⟨0x00, none⟩,
    ⟨0x01, "address_alias"⟩, ⟨0x00, none⟩,
    ⟨0x01, "miss_causes_a_walk"⟩, ⟨0x02, "walk_completed_4k"⟩, ⟨0x04, "walk_completed_2m_4m"⟩,
    ⟨0x0e, "walk_completed"⟩, ⟨0x10, "walk_duration"⟩, ⟨0x20, "stlb_hit_4k"⟩,
    ⟨0x40, "stlb_hit_2m"⟩, ⟨0x60, "stlb_hit"⟩, ⟨0x80, "pde_cache_miss"⟩, ⟨0x00, none⟩,
    ⟨0x03, "recovery_cycles"⟩, ⟨0x00, none⟩,
    ⟨0x01, "any"⟩, ⟨0x10, "flags_merge"⟩, ⟨0x20, "slow_lea"⟩, ⟨0x40, "single_mul"⟩, ⟨0x00, none⟩,
    ⟨0x21, "demand_data_rd_miss"⟩, ⟨0x41, "demand_data_rd_hit"⟩, ⟨0xE1, "all_demand_data_rd"⟩,
    ⟨0x42, "rfo_hit"⟩, ⟨0x22, "rfo_miss"⟩, ⟨0xE2, "all_rfo"⟩, ⟨0x44, "code_rd_hit"⟩,
    ⟨0x24, "code_rd_miss"⟩, ⟨0x27, "all_demand_miss"⟩, ⟨0xE7, "all_demand_references"⟩,
    ⟨0xE4, "all_code_rd"⟩, ⟨0x50, "l2_pf_hit"⟩, ⟨0x30, "l2_pf_miss"⟩, ⟨0xF8, "all_pf"⟩,
    ⟨0x3F, "miss"⟩, ⟨0xFF, "references"⟩, ⟨0x00, none⟩,
    ⟨0x50, "wb_hit"⟩, ⟨0x00, none⟩,
    ⟨0x4F, "reference"⟩, ⟨0x41, "miss"⟩, ⟨0x00, none⟩,
    ⟨0x00, "core_clk"⟩, ⟨0x01, "ref_xclk"⟩, ⟨0x00, none⟩,
    ⟨0x01, "pending"⟩, ⟨0x00, none⟩,
    ⟨0x01, "miss_causes_a_walk"⟩, ⟨0x02, "walk_completed_4k"⟩, ⟨0x04, "walk_completed_2m_4m"⟩,
    ⟨0x0E, "walk_completed"⟩, ⟨0x10, "walk_duration"⟩, ⟨0x20, "stlb_hit_4k"⟩,
    ⟨0x40, "stlb_hit_2m"⟩, ⟨0x60, "stlb_hit"⟩, ⟨0x80, "pde_cache_miss"⟩, ⟨0x00, none⟩,
    ⟨0x01, "sw_pf"⟩, ⟨0x02, "hw_pf"⟩, ⟨0x00, none⟩,
    ⟨0x01, "replacement"⟩, ⟨0x00, none⟩,
    ⟨0x01, "abort_conflict"⟩, ⟨0x02, "abort_capacity_write"⟩,
    ⟨0x04, "abort_hle_store_to_elided_lock"⟩, ⟨0x08, "abort_hle_elision_buffer_not_empty"⟩,
    ⟨0x10, "abort_hle_elision_buffer_mismatch"⟩,
    ⟨0x20, "abort_hle_elision_buffer_unsupported_alignment"⟩, ⟨0x40, "hle_elision_buffer_full"⟩,
    ⟨0x00, none⟩,
    ⟨0x04, "int_not_eliminated"⟩, ⟨0x08, "simd_not_eliminated"⟩, ⟨0x01, "int_not_eliminated"⟩,
    ⟨0x02, "simd_eliminated"⟩, ⟨0x00, none⟩,
    ⟨0x01, "ring0"⟩, ⟨0x02, "ring123"⟩, ⟨0x00, none⟩,
    ⟨0x01, "misc1"⟩, ⟨0x02, "misc2"⟩, ⟨0x04, "misc3"⟩, ⟨0x08, "misc4"⟩, ⟨0x10, "misc5"⟩,
    ⟨0x00, none⟩,
    ⟨0x01, "empty_cycles"⟩, ⟨0x00, none⟩,
    ⟨0x01, "demand_data_rd"⟩, ⟨0x02, "demand_code_rd"⟩, ⟨0x04, "demand_rfo"⟩,
    ⟨0x08, "all_data_rd"⟩, ⟨0x00, none⟩,
    ⟨0x01, "split_lock_uc_lock_duration"⟩, ⟨0x02, "cache_lock_duration"⟩, ⟨0x00, none⟩,
    ⟨0x02, "empty"⟩, ⟨0x04, "mite_uops"⟩, ⟨0x08, "dsb_uops"⟩, ⟨0x10, "ms_dsb_uops"⟩,
    ⟨0x20, "ms_mite_uops"⟩, ⟨0x30, "ms_uops"⟩, ⟨0x18, "all_dsb_cycles_any_uops"⟩,
    ⟨0x18, "all_dsb_cycles_4_uops"⟩, ⟨0x24, "all_mite_cycles_any_uops"⟩,
    ⟨0x24, "all_mite_cycles_4_uops"⟩, ⟨0x3C, "mite_all_uops"⟩, ⟨0x00, none⟩,
    ⟨0x02, "misses"⟩, ⟨0x00, none⟩,
    ⟨0x01, "miss_causes_a_walk"⟩, ⟨0x02, "walk_completed_4k"⟩, ⟨0x04, "walk_completed_2m_4m"⟩,
    ⟨0x0E, "walk_completed"⟩, ⟨0x10, "walk_duration"⟩, ⟨0x20, "stlb_hit_4k"⟩,
    ⟨0x40, "stlb_hit_2m"⟩, ⟨0x60, "stlb_hit"⟩, ⟨0x00, none⟩,
    ⟨0x01, "lcp"⟩, ⟨0x04, "iq_full"⟩, ⟨0x00, none⟩,
    ⟨0x01, "cond"⟩, ⟨0x02, "direct_jmp"⟩, ⟨0x04, "indirect_jmp_non_call_ret"⟩,
    ⟨0x08, "return_near"⟩, ⟨0x10, "direct_near_call"⟩, ⟨0x20, "indirect_near_call"⟩,
    ⟨0x40, "nontaken"⟩, ⟨0x80, "taken"⟩, ⟨0xFF, "all_branches"⟩, ⟨0x00, none⟩,
    ⟨0x01, "cond"⟩, ⟨0x04, "indirect_jmp_non_call_ret"⟩, ⟨0x08, "return_near"⟩,
    ⟨0x10, "direct_near_call"⟩, ⟨0x20, "indirect_near_call"⟩, ⟨0x40, "nontaken"⟩,
    ⟨0x80, "taken"⟩, ⟨0xFF, "all_branches"⟩, ⟨0x00, none⟩,
    ⟨0x01, "core"⟩, ⟨0x00, none⟩,
    ⟨0x01, "port_0"⟩, ⟨0x02, "port_1"⟩, ⟨0x04, "port_2"⟩, ⟨0x08, "port_3"⟩, ⟨0x10, "port_4"⟩,
    ⟨0x20, "port_5"⟩, ⟨0x40, "port_6"⟩, ⟨0x80, "port_7"⟩, ⟨0x00, none⟩,
    ⟨0x01, "any"⟩, ⟨0x04, "rs"⟩, ⟨0x08, "sb"⟩, ⟨0x10, "rob"⟩, ⟨0x00, none⟩,
    ⟨0x01, "cycles_l2_pending"⟩, ⟨0x02, "cycles_ldm_pending"⟩, ⟨0x05, "stalls_l2_pending"⟩,
    ⟨0x08, "cycles_l1d_pending"⟩, ⟨0x0C, "stalls_l1d_pending"⟩, ⟨0x00, none⟩,
    ⟨0x01, "uops"⟩, ⟨0x00, none⟩,
    ⟨0x01, "itlb_flush"⟩, ⟨0x00, none⟩,
    ⟨0x01, "demand_data_rd"⟩, ⟨0x02, "demand_core_rd"⟩, ⟨0x04, "demand_rfo"⟩,
    ⟨0x08, "all_data_rd"⟩, ⟨0x00, none⟩,
    ⟨0x02, "core"⟩, ⟨0x00, none⟩,
    ⟨0x11, "dtlb_l1"⟩, ⟨0x21, "itlb_l1"⟩, ⟨0x12, "dtlb_l2"⟩, ⟨0x22, "itlb_l2"⟩,
    ⟨0x14, "dtlb_l3"⟩, ⟨0x24, "itlb_l3"⟩, ⟨0x18, "dtlb_memory"⟩, ⟨0x28, "itlb_memory"⟩,
    ⟨0x00, none⟩,
    ⟨0x01, "dtlb_thread"⟩, ⟨0x20, "stlb_any"⟩, ⟨0x00, none⟩,
    ⟨0x00, "any_p"⟩, ⟨0x01, "prec_dist"⟩, ⟨0x00, none⟩,
    ⟨0x08, "avx_to_sse"⟩, ⟨0x10, "sse_to_avx"⟩, ⟨0x40, "any_wb_assist"⟩, ⟨0x00, none⟩,
    ⟨0x01, "all"⟩, ⟨0x02, "retire_slots"⟩, ⟨0x00, none⟩,
    ⟨0x02, "memory_ordering"⟩, ⟨0x04, "smc"⟩, ⟨0x20, "maskmov"⟩, ⟨0x00, none⟩,
    ⟨0x00, "all_branches"⟩, ⟨0x01, "conditional"⟩, ⟨0x02, "near_call"⟩,
    ⟨0x04, "all_branches_pebs"⟩, ⟨0x08, "near_return"⟩, ⟨0x10, "not_taken"⟩,
    ⟨0x20, "near_taken"⟩, ⟨0x40, "far_branch"⟩, ⟨0x00, none⟩,
    ⟨0x00, "all_branches"⟩, ⟨0x01, "conditional"⟩, ⟨0x04, "all_branches_pebs"⟩,
    ⟨0x20, "near_taken"⟩, ⟨0x00, none⟩,
    ⟨0x01, "start"⟩, ⟨0x02, "commit"⟩, ⟨0x04, "aborted"⟩, ⟨0x08, "aborted_mem"⟩,
    ⟨0x10, "aborted_timer"⟩, ⟨0x20, "aborted_unfriendly"⟩, ⟨0x40, "aborted_memtype"⟩,
    ⟨0x80, "aborted_events"⟩, ⟨0x00, none⟩,
    ⟨0x01, "start"⟩, ⟨0x02, "commit"⟩, ⟨0x04, "aborted"⟩, ⟨0x08, "aborted_mem"⟩,
    ⟨0x10, "aborted_timer"⟩, ⟨0x20, "aborted_unfriendly"⟩, ⟨0x40, "aborted_memtype"⟩,
    ⟨0x80, "aborted_events"⟩, ⟨0x00, none⟩,
    ⟨0x02, "x87_output"⟩, ⟨0x04, "x87_input"⟩, ⟨0x08, "simd_output"⟩, ⟨0x10, "simd_input"⟩,
    ⟨0x1E, "any"⟩, ⟨0x00, none⟩,
    ⟨0x20, "lbr_inserts"⟩, ⟨0x00, none⟩,
    ⟨0x11, "stlb_miss_loads"⟩, ⟨0x12, "stlb_miss_stores"⟩, ⟨0x21, "lock_loads"⟩,
    ⟨0x41, "split_loads"⟩, ⟨0x42, "split_stores"⟩, ⟨0x81, "all_loads"⟩, ⟨0x82, "all_stores"⟩,
    ⟨0x00, none⟩,
    ⟨0x01, "l1_hit"⟩, ⟨0x02, "l2_hit"⟩, ⟨0x04, "l3_hit"⟩, ⟨0x08, "l1_miss"⟩, ⟨0x10, "l2_miss"⟩,
    ⟨0x20, "l3_miss"⟩, ⟨0x40, "hit_lfb"⟩, ⟨0x00, none⟩,
    ⟨0x01, "xsnp_miss"⟩, ⟨0x02, "xsnp_hit"⟩, ⟨0x04, "xsnp_hitm"⟩, ⟨0x08, "xsnp_none"⟩,
    ⟨0x00, none⟩,
    ⟨0x01, "local_dram"⟩, ⟨0x00, none⟩,
    ⟨0x1F, "any"⟩, ⟨0x00, none⟩,
    ⟨0x01, "demand_data_rd"⟩, ⟨0x02, "rfo"⟩, ⟨0x04, "code_rd"⟩, ⟨0x08, "all_pf"⟩,
    ⟨0x10, "l1d_wb"⟩, ⟨0x20, "l2_fill"⟩, ⟨0x40, "l2_wb"⟩, ⟨0x80, "all_requests"⟩, ⟨0x00, none⟩,
    ⟨0x01, "i"⟩, ⟨0x02, "s"⟩, ⟨0x04, "e"⟩, ⟨0x07, "all"⟩, ⟨0x00, none⟩,
    ⟨0x05, "demand_clean"⟩, ⟨0x06, "demand_dirty"⟩, ⟨0x00, none⟩
  ]

def eventList : List PhEvent :=
  [
    ⟨0x03, 0, "ld_blocks"⟩, ⟨0x05, 3, "misalign_mem_ref"⟩, ⟨0x07, 6, "ld_blocks_partial"⟩,
    ⟨0x08, 8, "dtlb_load_misses"⟩, ⟨0x0D, 18, "int_misc"⟩, ⟨0x0E, 20, "uops_issued"⟩,
    ⟨0x24, 25, "l2_rqsts"⟩, ⟨0x27, 42, "l2_demand_rqsts"⟩, ⟨0x2E, 44, "llc"⟩,
    ⟨0x3C, 47, "cpu_clk_unhalted"⟩, ⟨0x48, 50, "l1d_pend_miss"⟩, ⟨0x49, 52, "dtlb_store_misses"⟩,
    ⟨0x4C, 62, "load_hit_pre"⟩, ⟨0x51, 65, "l1d"⟩, ⟨0x54, 67, "tx_mem"⟩,
    ⟨0x58, 75, "move_elimination"⟩, ⟨0x5C, 80, "cpl_cycles"⟩, ⟨0x5D, 83, "tx_exec"⟩,
    ⟨0x5E, 89, "rs_events"⟩, ⟨0x60, 91, "offcore_requests_outstanding"⟩,
    ⟨0x63, 96, "lock_cycles"⟩, ⟨0x79, 99, "idq"⟩, ⟨0x80, 111, "icache"⟩,
    ⟨0x85, 113, "itlb_misses"⟩, ⟨0x87, 122, "ild_stall"⟩, ⟨0x88, 125, "br_inst_exec"⟩,
    ⟨0x89, 135, "br_misp_exec"⟩, ⟨0x9C, 144, "idq_uops_not_delivered"⟩,
    ⟨0xA1, 146, "uops_executed_port"⟩, ⟨0xA2, 155, "resource_stalls"⟩,
    ⟨0xA3, 160, "cycle_activity"⟩, ⟨0xA8, 166, "lsd"⟩, ⟨0xAE, 168, "itlb"⟩,
    ⟨0xB0, 170, "offcore_requests"⟩, ⟨0xB1, 175, "uops_executed"⟩,
    ⟨0xBC, 177, "page_walker_loads"⟩, ⟨0xBD, 186, "tlb_flush"⟩, ⟨0xC0, 189, "inst_retired"⟩,
    ⟨0xC1, 192, "other_assists"⟩, ⟨0xC2, 196, "uops_retired"⟩, ⟨0xC3, 199, "machine_clears"⟩,
    ⟨0xC4, 203, "br_inst_retired"⟩, ⟨0xC5, 212, "br_misp_retired"⟩, ⟨0xC8, 217, "hle_retired"⟩,
    ⟨0xC9, 226, "rtm_retired"⟩, ⟨0xCA, 235, "fp_assist"⟩, ⟨0xCC, 241, "rob_misc_events"⟩,
    ⟨0xD0, 243, "mem_uops_retired"⟩, ⟨0xD1, 251, "mem_load_uops_retired"⟩,
    ⟨0xD2, 259, "mem_load_uops_l3_hit_retired"⟩, ⟨0xD3, 264, "mem_load_uops_l3_miss_retired"⟩,
    ⟨0xE6, 266, "baclears"⟩, ⟨0xF0, 268, "l2_trans"⟩, ⟨0xF1, 277, "l2_lines_in"⟩,
    ⟨0xF2, 282, "l2_lines_out"⟩
  ]

/-- The unit masks of an event. -/
def PhEvent.umaskRows (e : PhEvent) : List PhUmask :=
  (umaskList.drop e.umasks).takeWhile fun u => u.name.isSome

/-- Every number in the tables is a byte. -/
theorem umaskVal_le : ∀ u ∈ umaskList, u.umaskVal ≤ 0xFF := by decide +kernel

theorem evtNum_le : ∀ e ∈ eventList, e.evtNum ≤ 0xFF := by decide +kernel

theorem umaskRows_le (e : PhEvent) : ∀ u ∈ e.umaskRows, u.umaskVal ≤ 0xFF := by
  intro u hu
  exact umaskVal_le u (List.mem_of_mem_drop ((List.takeWhile_sublist _).subset hu))

end EvtX86

end PerfHound
