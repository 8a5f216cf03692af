import H8S.Address

/-!
# Names of the on-chip registers

The registers on the chip lie in the last 256 bytes of the address space and are known by the names of the data sheet.
-/

namespace H8S.Listing

/-- Offsets in the register page, ascending, and the names of the registers there. -/
def registerNames : List (UInt8 × String) :=
  [(0x20, "MAR0AR"), (0x21, "MAR0AE"), (0x22, "MAR0AH"), (0x23, "MAR0AL"), (0x24, "ETCR0AH"), (0x25, "ETCR0AL"),
   (0x26, "IOAR0A"), (0x27, "DTCR0A"), (0x28, "MAR0BR"), (0x29, "MAR0BE"), (0x2A, "MAR0BH"), (0x2B, "MAR0BL"),
   (0x2C, "ETCR0BH"), (0x2D, "ETCR0BL"), (0x2E, "IOAR0B"), (0x2F, "DTCR0B"), (0x30, "MAR1AR"),
   (0x31, "MAR1AE"), (0x32, "MAR1AH"), (0x33, "MAR1AL"), (0x34, "ETCR1AH"), (0x35, "ETCR1AL"),
   (0x36, "IOAR1A"), (0x37, "DTCR1A"), (0x38, "MAR1BR"), (0x39, "MAR1BE"), (0x3A, "MAR1BH"), (0x3B, "MAR1BL"),
   (0x3C, "ETCR1BH"), (0x3D, "ETCR1BL"), (0x3E, "IOAR1B"), (0x3F, "DTCR1B"), (0x60, "TSTR"), (0x61, "TSNC"),
   (0x62, "TMDR"), (0x63, "TFCR"), (0x64, "TCR0"), (0x65, "TIOR0"), (0x66, "TIER0"), (0x67, "TSR0"),
   (0x68, "TCNT0H"), (0x69, "TCNT0L"), (0x6A, "GRA0H"), (0x6B, "GRA0L"), (0x6C, "GRB0H"), (0x6D, "GRB0L"),
   (0x6E, "TCR1"), (0x6F, "TIOR1"), (0x70, "TIER1"), (0x71, "TSR1"), (0x72, "TCNT1H"), (0x73, "TCNT1L"),
   (0x74, "GRA1H"), (0x75, "GRA1L"), (0x76, "GRB1H"), (0x77, "GRB1L"), (0x78, "TCR2"), (0x79, "TIOR2"),
   (0x7A, "TIER2"), (0x7B, "TSR2"), (0x7C, "TCNT2H"), (0x7D, "TCNT2L"), (0x7E, "GRA2H"), (0x7F, "GRA2L"),
   (0x80, "GRB2H"), (0x81, "GRB2L"), (0x82, "TCR3"), (0x83, "TIOR3"), (0x84, "TIER3"), (0x85, "TSR3"),
   (0x86, "TCNT3H"), (0x87, "TCNT3L"), (0x88, "GRA3H"), (0x89, "GRA3L"), (0x8A, "GRB3H"), (0x8B, "GRB3L"),
   (0x8C, "BRA3H"), (0x8D, "BRA3L"), (0x8E, "BRB3H"), (0x8F, "BRB3L"), (0x90, "TOER"), (0x91, "TOCR"),
   (0x92, "TCR4"), (0x93, "TIOR4"), (0x94, "TIER4"), (0x95, "TSR4"), (0x96, "TCNT4H"), (0x97, "TCNT4L"),
   (0x98, "GRA4H"), (0x99, "GRA4L"), (0x9A, "GRB4H"), (0x9B, "GRB4L"), (0x9C, "BRA4H"), (0x9D, "BRA4L"),
   (0x9E, "BRB4H"), (0x9F, "BRB4L"), (0xA0, "TPMR"), (0xA1, "TPCR"), (0xA2, "NDERB"), (0xA3, "NDERA"),
   (0xA4, "NDRB"), (0xA5, "NDRA"), (0xA6, "NDRB"), (0xA7, "NDRA"), (0xA8, "TCSR"), (0xA9, "TCNT"),
   (0xAB, "RSTCSR"), (0xAC, "RFSHCR"), (0xAD, "RTMCSR"), (0xAE, "RTCNT"), (0xAF, "RTCOR"), (0xB0, "SMR0"),
   (0xB1, "BRR0"), (0xB2, "SCR0"), (0xB3, "TDR0"), (0xB4, "SSR0"), (0xB5, "RDR0"), (0xB8, "SMR1"),
   (0xB9, "BRR1"), (0xBA, "SCR1"), (0xBB, "TDR1"), (0xBC, "SSR1"), (0xBD, "RDR1"), (0xC5, "P4DDR"),
   (0xC7, "P4DR"), (0xC9, "P6DDR"), (0xCB, "P6DR"), (0xCD, "P8DDR"), (0xCE, "P7DR"), (0xCF, "P8DR"),
   (0xD0, "P9DDR"), (0xD1, "PADDR"), (0xD2, "P9DR"), (0xD3, "PADR"), (0xD4, "PBDDR"), (0xD6, "PBDR"),
   (0xDA, "P4PCR"), (0xE0, "ADDRAH"), (0xE1, "ADDRAL"), (0xE2, "ADDRBH"), (0xE3, "ADDRBL"), (0xE4, "ADDRCH"),
   (0xE5, "ADDRCL"), (0xE6, "ADDRDH"), (0xE7, "ADDRDL"), (0xE8, "ADCSR"), (0xE9, "ADCR"), (0xEC, "ABWCR"),
   (0xED, "ASTCR"), (0xEE, "WCR"), (0xEF, "WCER"), (0xF1, "MDCR"), (0xF2, "SYSCR"), (0xF3, "BRCR"),
   (0xF4, "ISCR"), (0xF5, "IER"), (0xF6, "ISR"), (0xF8, "IPRA"), (0xF9, "IPRB")]

/-- The name of the register at an address, if there is one. -/
def registerName? (addr : UInt32) : Option String :=
  (registerNames.find? fun entry => Address.ofPageOffset entry.1 == addr).map Prod.snd

/-- The registers from one address to another, both included, in order. -/
def registersBetween (first last : UInt32) : List (UInt32 × String) :=
  (registerNames.map fun entry => (Address.ofPageOffset entry.1, entry.2)).filter fun named =>
    first ≤ named.1 && named.1 ≤ last

end H8S.Listing
