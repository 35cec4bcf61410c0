import McuFirmware.Lib.Run
import McuFirmware.Lib.CBuffer
import McuFirmware.Lib.Bytes
import McuFirmware.Lib.Trace
import McuFirmware.Lib.Blocks
import McuFirmware.Lib.Family
import McuFirmware.Lib.Cuts
import McuFirmware.Lib.Groups
import McuFirmware.Lib.CellRuns
import McuFirmware.Lib.Triple
import McuFirmware.Lib.Ring
import McuFirmware.Lib.Memory
import McuFirmware.Lib.Tiles
import McuFirmware.Lib.OnesComplement
import McuFirmware.Lib.Deltas
import McuFirmware.Lib.Word32
import McuFirmware.Lib.Links
import McuFirmware.Lwip.Pbuf
import McuFirmware.Lwip.Udp
import McuFirmware.Lwip.Ethernetif
import McuFirmware.Lwip.Mem
import McuFirmware.Lwip.MemCalls
import McuFirmware.Lwip.MemRun
import McuFirmware.Lwip.Chksum
import McuFirmware.Lwip.Datagram
import McuFirmware.Lwip.Timeouts
import McuFirmware.Lwip.Frag
import McuFirmware.Lwip.Reass
import McuFirmware.Lwip.Sent
import McuFirmware.Lwip.ReassOrder
import McuFirmware.Enc28j60.Driver
import McuFirmware.Enc28j60.Chip
import McuFirmware.Enc28j60.Bank
import McuFirmware.Enc28j60.Flat
import McuFirmware.Enc28j60.Receive
import McuFirmware.Enc28j60.Fifo
import McuFirmware.Tftp.Packet
import McuFirmware.Tftp.Conn
import McuFirmware.Tftp.Live
import McuFirmware.Tftp.Request
import McuFirmware.Tftp.RequestLine
import McuFirmware.Tftp.Upload
import McuFirmware.Tftp.Download
import McuFirmware.Tftp.LastBlock
import McuFirmware.Tftp.Server
import McuFirmware.Tftp.Overrun
import McuFirmware.Tftp.Exclusion
import McuFirmware.Tftp.ErrorEnds
import McuFirmware.Tftp.Holdings
import McuFirmware.Tftp.Timeout
import McuFirmware.Tftp.Idle
import McuFirmware.Tftp.Rollover
import McuFirmware.Tftp.Net
import McuFirmware.Tftp.Isolation
import McuFirmware.Mcu.Codec
import McuFirmware.Mcu.Receiver
import McuFirmware.Mcu.Bounds
import McuFirmware.Mcu.Reply
import McuFirmware.Mcu.Display
import McuFirmware.Sniffer.Recv
import McuFirmware.Sniffer.Client
import McuFirmware.Sniffer.Framing
import McuFirmware.Sniffer.Reconnect
import McuFirmware.Malloc.Pool
import McuFirmware.Malloc.Fit
import McuFirmware.Malloc.Heap
import McuFirmware.Malloc.Realloc
import McuFirmware.Usart.Line
import McuFirmware.App.Timers
import McuFirmware.FatFs.Window
import McuFirmware.FatFs.Fat
import McuFirmware.FatFs.Table
import McuFirmware.FatFs.Chain
import McuFirmware.FatFs.File
import McuFirmware.FatFs.Storage
import McuFirmware.FatFs.Reading
import McuFirmware.FatFs.Writing
import McuFirmware.FatFs.Seeking
import McuFirmware.FatFs.Truncating
import McuFirmware.FatFs.Volume
import McuFirmware.FatFs.Syncing
