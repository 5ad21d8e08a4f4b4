import UBoot.Efi.FreeMemory
import UBoot.Lmb.Atomic
import UBoot.Lmb.Canonical
import UBoot.Membuff.Fifo
import UBoot.Membuff.Circbuf
import UBoot.Env.Mmc
import UBoot.Env.Failures
import UBoot.Env.CrLf
import UBoot.Env.Readers
import UBoot.Env.FwEnv
import UBoot.Env.FlashExact
import UBoot.Env.AttrGrammar
import UBoot.Env.FlagsOrder
import UBoot.Env.IpAddr
import UBoot.Disk.DosAgree
import UBoot.Disk.GptLayout
import UBoot.Fat.Full
import UBoot.Fit.Signed
import UBoot.Fit.NextAgree
import UBoot.Fit.Selected
import UBoot.Fit.Compat
import UBoot.Sparse.Sessions
import UBoot.Net.DefragOrder
import UBoot.Net.Dns
import UBoot.Net.TftpPut
import UBoot.Net.TftpAcks
import UBoot.Dfu.Upload
import UBoot.Dfu.MemAddr
import UBoot.Dfu.Entities
import UBoot.Mtd.Buffers
import UBoot.Pci.Sound
import UBoot.Dm.Traces
import UBoot.Ext4.Dirents
import UBoot.Ext4.ReadAlways
import UBoot.Ext4.Recovered
import UBoot.Ext4.BitmapsRuns
import UBoot.Cli.History
import UBoot.Cli.Cread
import UBoot.Cli.Escapes
import UBoot.Cli.Expand
import UBoot.Net.NfsDownload
import UBoot.Net.BootpOptions
import UBoot.Net.LinkLocalRuns
import UBoot.Net.Checksum
import UBoot.Spi.Protect
import UBoot.Spi.Banks
import UBoot.Pxe.Include
import UBoot.Nand.Exact
import UBoot.Bootm.Interrupts
import UBoot.Tpm.Requests
import UBoot.Bootm.Lz4
import UBoot.Env.Hwconfig
import UBoot.Env.ExportOrder
import UBoot.Env.Crc32
